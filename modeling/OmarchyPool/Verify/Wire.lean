/-
# OmarchyPool.Verify.Wire -- the SSH wire format

Byte strings with their length in front, as the agent's `put_string` and `Reader` write and read them, and
the two numbers of an ECDSA signature in it.  A number is the shortest string of bytes that is not negative
(`mpint`); what reads one drops its leading zeros and pads it to the width of the curve, which is the
number again (`ecdsaFixed_mpint`).
-/
import OmarchyPool.Lib.BigEndian
import OmarchyPool.Manifest.Vercmp

namespace OmarchyPool.Verify

open Lib BigEndian Manifest

set_option autoImplicit false

/-- The length is a `u32`; no string here is 4 GiB. -/
def putString (s : Bytes) : Bytes := fixed 4 s.length ++ s

/-! ## `Reader` -/

namespace Reader

/-- What is taken of the rest of the bytes, and what is left. -/
def take (n : Nat) (rest : Bytes) : Except String (Bytes × Bytes) :=
  if rest.length < n then .error "truncated" else .ok (rest.take n, rest.drop n)

def u32 (rest : Bytes) : Except String (Nat × Bytes) := do
  let (b, rest) ← take 4 rest
  return (number b, rest)

def string (rest : Bytes) : Except String (Bytes × Bytes) := do
  let (n, rest) ← u32 rest
  take n rest

def finish (rest : Bytes) : Except String Unit := if rest = [] then .ok () else .error "trailing bytes"

theorem take_append {n : Nat} {s : Bytes} (length : s.length = n) (rest : Bytes) : take n (s ++ rest) = .ok (s, rest) := by
  have enough : ¬ (s ++ rest).length < n := by
    rw [List.length_append]
    omega
  rw [take, if_neg enough, ← length, List.take_left, List.drop_left]

theorem u32_append {n : Nat} (fits : n < 2 ^ 32) (rest : Bytes) : u32 (fixed 4 n ++ rest) = .ok (n, rest) := by
  have whole : number (fixed 4 n) = n := number_fixed (by simpa using fits)
  rw [u32, take_append (length_fixed 4 n)]
  show Except.ok (number (fixed 4 n), rest) = _
  rw [whole]

/-- A string that was put is read, and the rest is left. -/
theorem string_putString {s : Bytes} (fits : s.length < 2 ^ 32) (rest : Bytes) :
    string (putString s ++ rest) = .ok (s, rest) := by
  rw [string, putString, List.append_assoc, u32_append fits]
  exact take_append rfl rest

end Reader

/-! ## The two numbers of an ECDSA signature -/

/-- The sign of the number a string of bytes writes, two's complement. -/
def isNegative (l : Bytes) : Bool := l.head?.any fun b => b &&& 0x80 != 0

/-- One half of the fixed signature. -/
def ecdsaHalf (rest : Bytes) : Except String (Bytes × Bytes) := do
  let (mpint, rest) ← Reader.string rest
  if isNegative mpint then throw "a negative ECDSA signature value"
  let digits := mpint.dropWhile (· == 0)
  if 32 < digits.length then throw "an ECDSA signature value wider than P-256's"
  return (pad 32 digits, rest)

/-- `ecdsa_fixed`: the two halves in turn, and nothing behind them. -/
def ecdsaFixed (raw : Bytes) : Except String Bytes := do
  let (r, rest) ← ecdsaHalf raw
  let (s, rest) ← ecdsaHalf rest
  Reader.finish rest
  return r ++ s

/-- Without the leading zeros that do not keep the number from being negative. -/
def trimSign : Bytes → Bytes
  | a :: b :: rest => if a = 0 ∧ b < 0x80 then trimSign (b :: rest) else a :: b :: rest
  | l => l

/-- The shortest two's complement of a number below 2^256, in one byte at least. -/
def octets (n : Nat) : Bytes := trimSign (fixed 33 n)

/-- The SSH encoding of a number, which is empty for zero. -/
def mpint (n : Nat) : Bytes := if n = 0 then [] else octets n

theorem number_trimSign (l : Bytes) : number (trimSign l) = number l := by
  fun_induction trimSign l with
  | case1 a b rest short ih =>
      rw [ih, number_cons a, short.1]
      simp
  | case2 a b rest long => rfl
  | case3 l notTwo => rfl

theorem length_trimSign_le (l : Bytes) : (trimSign l).length ≤ l.length := by
  fun_induction trimSign l with
  | case1 a b rest short ih => exact ih.trans (Nat.le_succ _)
  | case2 a b rest long => exact Nat.le_refl _
  | case3 l notTwo => exact Nat.le_refl _

theorem trimSign_ne_nil {l : Bytes} (nonempty : l ≠ []) : trimSign l ≠ [] := by
  fun_induction trimSign l with
  | case1 a b rest short ih => exact ih (List.cons_ne_nil b rest)
  | case2 a b rest long => exact List.cons_ne_nil _ _
  | case3 l notTwo => exact nonempty

theorem not_negative_of_lt {b : UInt8} (low : b < 0x80) : (b &&& 0x80 != 0) = false := by
  have all : ∀ n : Fin 256, UInt8.ofNat n < 0x80 → (UInt8.ofNat n &&& 0x80 != 0) = false := by decide +kernel
  have its := all ⟨b.toNat, b.toNat_lt⟩
  rw [UInt8.ofNat_toNat] at its
  exact its low

theorem isNegative_trimSign {l : Bytes} (positive : isNegative l = false) : isNegative (trimSign l) = false := by
  fun_induction trimSign l with
  | case1 a b rest short ih =>
      apply ih
      simpa [isNegative] using not_negative_of_lt short.2
  | case2 a b rest long => exact positive
  | case3 l notTwo => exact positive

section Octets

variable {n : Nat} (fits : n < 2 ^ 256)

include fits

theorem number_octets : number (octets n) = n := by
  have wide : n < 256 ^ 33 := fits.trans (by decide)
  rw [octets, number_trimSign, number_fixed wide]

theorem octets_nonnegative : isNegative (octets n) = false := by
  apply isNegative_trimSign
  -- the first of 33 bytes is the number shifted right by 32 bytes
  have whole := number_fixed (show n < 256 ^ 33 from fits.trans (by decide))
  obtain ⟨b, rest, eq⟩ := List.exists_cons_of_length_eq_add_one (length_fixed 33 n)
  have width : rest.length = 32 := by
    have length := length_fixed 33 n
    rw [eq] at length
    simpa using length
  rw [eq] at whole ⊢
  rw [number_cons, width] at whole
  have zero : b.toNat = 0 := by
    by_contra nonzero
    have least : 256 ^ 32 ≤ b.toNat * 256 ^ 32 := Nat.le_mul_of_pos_left _ (Nat.pos_of_ne_zero nonzero)
    have power : (256 : Nat) ^ 32 = 2 ^ 256 := by norm_num
    omega
  have isZero : b = 0 := UInt8.toNat_inj.mp zero
  simp [isNegative, isZero]

end Octets

theorem length_octets (n : Nat) : (octets n).length ≤ 33 := by
  have le := length_trimSign_le (fixed 33 n)
  rwa [length_fixed] at le

theorem octets_ne_nil (n : Nat) : octets n ≠ [] := by
  apply trimSign_ne_nil
  intro nil
  have length := length_fixed 33 n
  rw [nil] at length
  cases length

section Mpint

variable {n : Nat} (fits : n < 2 ^ 256)

include fits

theorem number_mpint : number (mpint n) = n := by
  unfold mpint
  split
  · rename_i zero
    rw [zero]
    rfl
  · exact number_octets fits

theorem mpint_nonnegative : isNegative (mpint n) = false := by
  unfold mpint
  split
  · rfl
  · exact octets_nonnegative fits

end Mpint

theorem length_mpint (n : Nat) : (mpint n).length < 2 ^ 32 := by
  have le := length_octets n
  unfold mpint
  split
  · decide
  · omega

theorem ecdsaHalf_mpint {n : Nat} (fits : n < 2 ^ 256) (rest : Bytes) :
    ecdsaHalf (putString (mpint n) ++ rest) = .ok (fixed 32 n, rest) := by
  have power : (256 : Nat) ^ 32 = 2 ^ 256 := by norm_num
  have short : ((mpint n).dropWhile (· == 0)).length ≤ 32 := by
    rw [length_dropWhile_le_iff, number_mpint fits, power]
    exact fits
  have padded : pad 32 ((mpint n).dropWhile (· == 0)) = fixed 32 n := by
    rw [pad_eq_fixed short, number_dropWhile, number_mpint fits]
  unfold ecdsaHalf
  rw [Reader.string_putString (length_mpint n)]
  show (if isNegative (mpint n) then _ else _) = _
  rw [mpint_nonnegative fits]
  show (if 32 < ((mpint n).dropWhile (· == 0)).length then _ else _) = _
  rw [if_neg (Nat.not_lt.mpr short), padded]
  rfl

/-- Two numbers below 2^256 are read as their 32 bytes each. -/
theorem ecdsaFixed_mpint {r s : Nat} (fitsR : r < 2 ^ 256) (fitsS : s < 2 ^ 256) :
    ecdsaFixed (putString (mpint r) ++ putString (mpint s)) = .ok (fixed 32 r ++ fixed 32 s) := by
  have second := ecdsaHalf_mpint fitsS []
  rw [List.append_nil] at second
  unfold ecdsaFixed
  rw [ecdsaHalf_mpint fitsR]
  show (do let (s, rest) ← ecdsaHalf (putString (mpint s)); Reader.finish rest; return fixed 32 r ++ s) = _
  rw [second]
  rfl

end OmarchyPool.Verify
