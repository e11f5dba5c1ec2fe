/-
# OmarchyPool.Webauthn.Der -- an ECDSA signature out of DER

`derToRaw` reads a SEQUENCE of two INTEGERs and writes them one after the other, each padded to the width
of the curve.  What it takes is such a sequence and what it gives are its two numbers (`derToRaw_sound`),
and it takes the encoding of every two numbers that fit (`derToRaw_der`).  A length of one octet may come
in the long form, `0x81`, which its documentation says is refused: that is where the two part
(`ecdsa_conversions_iff`).
-/
import OmarchyPool.Verify.Wire

namespace OmarchyPool.Webauthn

open Lib BigEndian Manifest Verify

set_option autoImplicit false

/-! ## `derToRaw`

`der[i]` past the end is `undefined`, which every check refuses; the rest of the bytes stands for the
position `i`. -/

/-- `while (v.length > 1 && v[0] === 0)`. -/
def dropZeros : Bytes → Bytes
  | a :: b :: rest => if a = 0 then dropZeros (b :: rest) else a :: b :: rest
  | v => v

def integer (size : Nat) : Bytes → Option (Bytes × Bytes)
  | tag :: l :: rest =>
      if tag ≠ 0x02 then none
      else if l.toNat < 1 ∨ size + 1 < l.toNat ∨ rest.length < l.toNat then none
      else
        let v := rest.take l.toNat
        if isNegative v then none
        else
          let v := dropZeros v
          if size < v.length then none
          else some (pad size v, rest.drop l.toNat)
  | _ => none

/-- The length of the sequence, and what is left. -/
def sequenceLength : Bytes → Option (Nat × Bytes)
  | len :: rest =>
      if len = 0x81 then
        match rest with
        | len :: rest => some (len.toNat, rest)
        | [] => none
      else if len &&& 0x80 ≠ 0 then none
      else some (len.toNat, rest)
  | [] => none

def derToRaw (der : Bytes) (size : Nat) : Option Bytes :=
  match der with
  | tag :: rest =>
      if tag ≠ 0x30 then none
      else do
        let (len, rest) ← sequenceLength rest
        if len ≠ rest.length then none
        else
          let (r, rest) ← integer size rest
          let (s, rest) ← integer size rest
          if rest ≠ [] then none else some (r ++ s)
  | [] => none

/-! ## DER -/

/-- An INTEGER of these octets. -/
def derInteger (content : Bytes) : Bytes := 0x02 :: UInt8.ofNat content.length :: content

/-- The SEQUENCE of the INTEGERs of two numbers, in the short form of the length. -/
def der (r s : Nat) : Bytes :=
  let body := derInteger (octets r) ++ derInteger (octets s)
  0x30 :: UInt8.ofNat body.length :: body

/-- The octets of an INTEGER that is not negative. -/
structure IsInteger (content : Bytes) : Prop where
  nonempty : content ≠ []
  short : content.length < 0x80
  nonnegative : isNegative content = false

/-- A SEQUENCE of two INTEGERs that are not negative, whose numbers are the two halves, with the length `head`
in front and nothing behind it. -/
def IsSequence (head : Nat → Bytes) (bytes raw : Bytes) : Prop :=
  ∃ a b, IsInteger a ∧ IsInteger b ∧
    bytes = 0x30 :: (head (derInteger a ++ derInteger b).length ++ (derInteger a ++ derInteger b)) ∧
    (derInteger a ++ derInteger b).length < 0x80 ∧
    raw = fixed 32 (number a) ++ fixed 32 (number b) ∧ number a < 2 ^ 256 ∧ number b < 2 ^ 256

/-- One octet. -/
def shortForm (length : Nat) : Bytes := [UInt8.ofNat length]

/-- How many octets follow, which is one, and that one. -/
def longForm (length : Nat) : Bytes := [0x81, UInt8.ofNat length]

/-! ## One integer -/

theorem number_dropZeros (v : Bytes) : number (dropZeros v) = number v := by
  fun_induction dropZeros v with
  | case1 b rest ih =>
      rw [ih, number_cons 0]
      simp
  | case2 a b rest nonzero => rfl
  | case3 v notTwo => rfl

theorem length_dropZeros (v : Bytes) : (dropZeros v).length = if v.dropWhile (· == 0) = [] then min v.length 1
    else (v.dropWhile (· == 0)).length := by
  fun_induction dropZeros v with
  | case1 b rest ih => simpa using ih
  | case2 a b rest nonzero => simp [nonzero]
  | case3 v notTwo =>
      rcases v with _ | ⟨a, _ | ⟨b, rest⟩⟩
      · rfl
      · by_cases zero : a = 0 <;> simp [zero]
      · exact absurd rfl (notTwo a b rest)

/-- Dropping the zeros leaves no more than the width exactly when the number fits it. -/
theorem dropZeros_fits (v : Bytes) : (dropZeros v).length ≤ 32 ↔ number v < 2 ^ 256 := by
  have power : (256 : Nat) ^ 32 = 2 ^ 256 := by norm_num
  have fits := @length_dropWhile_le_iff v 32
  rw [power] at fits
  rw [← fits, length_dropZeros]
  split
  · rename_i nothing
    rw [nothing]
    simp only [List.length_nil]
    omega
  · exact Iff.rfl

theorem toNat_ofNat {n : Nat} (small : n < 0x80) : (UInt8.ofNat n).toNat = n := by
  rw [UInt8.toNat_ofNat']
  omega

theorem integer_derInteger {content rest : Bytes} (its : IsInteger content) (short : content.length ≤ 33)
    (fits : number content < 2 ^ 256) :
    integer 32 (derInteger content ++ rest) = some (fixed 32 (number content), rest) := by
  have length := toNat_ofNat its.short
  have some : 0 < content.length := List.length_pos_iff.mpr its.nonempty
  have within : (dropZeros content).length ≤ 32 := (dropZeros_fits content).mpr fits
  have inRange : ¬ (content.length < 1 ∨ 32 + 1 < content.length ∨ (content ++ rest).length < content.length) := by
    rw [List.length_append]
    omega
  rw [derInteger, List.cons_append, List.cons_append, integer, length]
  simp only [ne_eq, not_true_eq_false, if_false, if_neg inRange, List.take_left, List.drop_left, its.nonnegative,
    Bool.false_eq_true, if_neg (Nat.not_lt.mpr within)]
  rw [pad_eq_fixed within, number_dropZeros]

theorem integer_some {bytes half rest : Bytes} (read : integer 32 bytes = some (half, rest)) :
    ∃ content, IsInteger content ∧ bytes = derInteger content ++ rest ∧ number content < 2 ^ 256 ∧
      half = fixed 32 (number content) := by
  rcases bytes with _ | ⟨tag, _ | ⟨l, tail⟩⟩
  · cases read
  · cases read
  · simp only [integer] at read
    split at read
    · cases read
    · rename_i isTag
      split at read
      · cases read
      · rename_i inRange
        split at read
        · cases read
        · rename_i positive
          split at read
          · cases read
          · rename_i within
            simp only [Option.some.injEq, Prod.mk.injEq] at read
            obtain ⟨rfl, rfl⟩ := read
            have length : (tail.take l.toNat).length = l.toNat := by
              rw [List.length_take]
              omega
            have short := Nat.not_lt.mp within
            refine ⟨tail.take l.toNat, ⟨?_, ?_, by simpa using positive⟩, ?_, (dropZeros_fits _).mp short, ?_⟩
            · intro nil
              rw [nil] at length
              simp at length
              omega
            · omega
            · rw [derInteger, length, UInt8.ofNat_toNat, List.cons_append, List.cons_append, List.take_append_drop,
                not_not.mp isTag]
            · rw [pad_eq_fixed short, number_dropZeros]

/-- An integer that is read is no wider than the curve and a sign. -/
theorem integer_length {bytes half rest content left : Bytes} (read : integer 32 bytes = some (half, rest))
    (eq : bytes = derInteger content ++ left) : content.length < 0x80 → content.length ≤ 33 := by
  intro small
  subst eq
  simp only [derInteger, List.cons_append, integer, toNat_ofNat small] at read
  split at read
  · cases read
  · split at read
    · cases read
    · omega

/-! ## The sequence -/

theorem length_derInteger (content : Bytes) : (derInteger content).length = content.length + 2 := rfl

theorem isInteger_octets {n : Nat} (fits : n < 2 ^ 256) : IsInteger (octets n) :=
  ⟨octets_ne_nil n, (length_octets n).trans_lt (by decide), octets_nonnegative fits⟩

theorem derToRaw_der {r s : Nat} (fitsR : r < 2 ^ 256) (fitsS : s < 2 ^ 256) :
    derToRaw (der r s) 32 = some (fixed 32 r ++ fixed 32 s) := by
  have lengthR := length_octets r
  have lengthS := length_octets s
  have body : (derInteger (octets r) ++ derInteger (octets s)).length < 0x80 := by
    rw [List.length_append, length_derInteger, length_derInteger]
    omega
  have first := @integer_derInteger (octets r) (derInteger (octets s)) (isInteger_octets fitsR) lengthR
    ((number_octets fitsR).trans_lt fitsR)
  have second := @integer_derInteger (octets s) [] (isInteger_octets fitsS) lengthS
    ((number_octets fitsS).trans_lt fitsS)
  rw [number_octets fitsR] at first
  rw [number_octets fitsS, List.append_nil] at second
  have notLong : UInt8.ofNat (derInteger (octets r) ++ derInteger (octets s)).length ≠ 0x81 := by
    intro long
    have same := congrArg UInt8.toNat long
    rw [toNat_ofNat body] at same
    have value : (0x81 : UInt8).toNat = 129 := rfl
    omega
  have isShort : ¬ (UInt8.ofNat (derInteger (octets r) ++ derInteger (octets s)).length &&& 0x80 ≠ 0) := by
    have low : UInt8.ofNat (derInteger (octets r) ++ derInteger (octets s)).length < 0x80 := by
      rw [UInt8.lt_iff_toNat_lt, toNat_ofNat body]
      exact body
    simpa using not_negative_of_lt low
  simp only [derToRaw, der, sequenceLength, ne_eq, not_true_eq_false, if_false, if_neg notLong, if_neg isShort,
    toNat_ofNat body, Option.bind_eq_bind, Option.bind_some]
  rw [first]
  simp only [Option.bind_some]
  rw [second]
  rfl

/-- What is taken is a sequence, with its length in the one form or the other. -/
theorem derToRaw_sound {bytes raw : Bytes} (taken : derToRaw bytes 32 = some raw) :
    (bytes[1]? ≠ some 0x81 ∧ IsSequence shortForm bytes raw) ∨
      (bytes[1]? = some 0x81 ∧ IsSequence longForm bytes raw) := by
  rcases bytes with _ | ⟨tag, bytes⟩
  · cases taken
  · simp only [derToRaw] at taken
    split at taken
    · cases taken
    · rename_i isTag
      obtain ⟨⟨len, rest⟩, length, taken⟩ := Option.bind_eq_some_iff.mp taken
      simp only at taken
      split at taken
      · cases taken
      · rename_i whole
        obtain ⟨⟨r, rest'⟩, first, read⟩ := Option.bind_eq_some_iff.mp taken
        obtain ⟨⟨s, rest''⟩, second, both⟩ := Option.bind_eq_some_iff.mp read
        simp only at first second both
        split at both
        · cases both
        · rename_i nothing
          obtain ⟨a, isA, eqA, fitsA, halfA⟩ := integer_some first
          obtain ⟨b, isB, eqB, fitsB, halfB⟩ := integer_some second
          rw [not_not.mp nothing, List.append_nil] at eqB
          subst eqB
          have raw_eq : raw = fixed 32 (number a) ++ fixed 32 (number b) := by
            rw [← halfA, ← halfB]
            exact (Option.some.inj both).symm
          have size : len = (derInteger a ++ derInteger b).length := by rw [not_not.mp whole, eqA]
          have isTag' : tag = 0x30 := not_not.mp isTag
          subst isTag'
          -- each integer is at most 35 bytes, its own check having passed
          have short : (derInteger a ++ derInteger b).length < 0x80 := by
            have widthA := integer_length first eqA isA.short
            have widthB := integer_length second (List.append_nil _).symm isB.short
            rw [List.length_append, length_derInteger, length_derInteger]
            omega
          rcases bytes with _ | ⟨l, bytes⟩
          · cases length
          · by_cases long : l = 0x81
            · right
              subst long
              rcases bytes with _ | ⟨l, bytes⟩
              · cases length
              · have pair : (l.toNat, bytes) = (len, rest) := Option.some.inj length
                simp only [Prod.mk.injEq] at pair
                obtain ⟨rfl, rfl⟩ := pair
                refine ⟨rfl, a, b, isA, isB, ?_, short, raw_eq, fitsA, fitsB⟩
                rw [longForm, ← size, UInt8.ofNat_toNat, eqA]
                rfl
            · left
              simp only [sequenceLength, if_neg long] at length
              split at length
              · cases length
              · simp only [Option.some.injEq, Prod.mk.injEq] at length
                obtain ⟨rfl, rfl⟩ := length
                refine ⟨by simpa using long, a, b, isA, isB, ?_, short, raw_eq, fitsA, fitsB⟩
                rw [shortForm, ← size, UInt8.ofNat_toNat, eqA]
                rfl

/-- The conversions of every two numbers that fit are the numbers, in 32 bytes each; and what `derToRaw` takes
is a sequence of two numbers as its documentation says exactly when its length is not in the long form. -/
theorem ecdsa_conversions_iff (r s : Nat) (bytes raw : Bytes) :
    (r < 2 ^ 256 → s < 2 ^ 256 →
      derToRaw (der r s) 32 = some (fixed 32 r ++ fixed 32 s) ∧
        ecdsaFixed (putString (mpint r) ++ putString (mpint s)) = .ok (fixed 32 r ++ fixed 32 s)) ∧
    (derToRaw bytes 32 = some raw → (IsSequence shortForm bytes raw ↔ bytes[1]? ≠ some 0x81)) := by
  constructor
  · intro fitsR fitsS
    exact ⟨derToRaw_der fitsR fitsS, ecdsaFixed_mpint fitsR fitsS⟩
  · intro taken
    rcases derToRaw_sound taken with ⟨isShort, sequence⟩ | ⟨isLong, -⟩
    · exact ⟨fun _ => isShort, fun _ => sequence⟩
    · constructor
      · rintro ⟨a, b, -, -, rfl, short, -⟩
        intro
        have value : UInt8.ofNat (derInteger a ++ derInteger b).length = 0x81 := by simpa [shortForm] using isLong
        have same := congrArg UInt8.toNat value
        rw [toNat_ofNat short] at same
        have high : (0x81 : UInt8).toNat = 129 := rfl
        omega
      · intro notLong
        exact absurd isLong notLong

theorem ecdsa_conversions_one :
    derToRaw (der 1 (2 ^ 255)) 32 = some (fixed 32 1 ++ fixed 32 (2 ^ 255)) ∧
      ecdsaFixed (putString (mpint 1) ++ putString (mpint (2 ^ 255))) = .ok (fixed 32 1 ++ fixed 32 (2 ^ 255)) :=
  (ecdsa_conversions_iff 1 (2 ^ 255) [] []).1 (by norm_num) (by norm_num)

/-- `30 81 06`: six bytes follow, in the long form. -/
theorem long_form_taken :
    derToRaw [0x30, 0x81, 0x06, 0x02, 0x01, 0x01, 0x02, 0x01, 0x01] 32 = some (fixed 32 1 ++ fixed 32 1) ∧
      ¬ IsSequence shortForm [0x30, 0x81, 0x06, 0x02, 0x01, 0x01, 0x02, 0x01, 0x01] (fixed 32 1 ++ fixed 32 1) := by
  refine ⟨by decide, ?_⟩
  rintro ⟨a, b, -, -, eq, short, -⟩
  simp only [shortForm, List.cons_append, List.nil_append, List.cons.injEq] at eq
  have same := congrArg UInt8.toNat eq.2.1
  rw [toNat_ofNat short] at same
  have high : (0x81 : UInt8).toNat = 129 := rfl
  omega

end OmarchyPool.Webauthn
