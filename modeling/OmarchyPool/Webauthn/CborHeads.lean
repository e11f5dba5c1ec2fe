/-
# OmarchyPool.Webauthn.CborHeads -- the head of a CBOR item

What the decoder reads of an item before its content: the major type and the lower bits of its first octet, and
the number the octets behind it write (`argument_iff`).  The shifts it reads a number of 32 bits with go through
the sign and come out as the number (`word_eq`).
-/
import OmarchyPool.Lib.Piece
import OmarchyPool.Webauthn.Cbor

namespace OmarchyPool.Webauthn

open Lib BigEndian Manifest

set_option autoImplicit false

/-! ## Shifts -/

theorem toNat_shl (b : UInt8) {k : Nat} (small : k ≤ 24) : (shl b k).toNat = b.toNat * 2 ^ k := by
  have byte := b.toNat_lt
  have fits : b.toNat * 2 ^ k < 2 ^ 32 := by
    have power : 2 ^ k ≤ 2 ^ 24 := Nat.pow_le_pow_right (by decide) small
    calc b.toNat * 2 ^ k ≤ b.toNat * 2 ^ 24 := Nat.mul_le_mul_left _ power
      _ < 2 ^ 32 := by omega
  have low : b.toNat % 2 ^ 32 = b.toNat := Nat.mod_eq_of_lt (by omega)
  rw [shl, BitVec.toNat_shiftLeft, BitVec.toNat_ofNat, low, Nat.shiftLeft_eq, Nat.mod_eq_of_lt fits]

/-- Octets that do not overlap. -/
theorem or_shl (a b : Nat) {k : Nat} (below : b < 2 ^ k) : a * 2 ^ k ||| b = a * 2 ^ k + b := by
  rw [← Nat.shiftLeft_eq, Nat.shiftLeft_add_eq_or_of_lt below]

theorem two_octets (b0 b1 : UInt8) : (shl b0 8 ||| shl b1 0).toInt = (number [b0, b1] : Nat) := by
  have byte0 := b0.toNat_lt
  have byte1 := b1.toNat_lt
  have whole : (shl b0 8 ||| shl b1 0).toNat = number [b0, b1] := by
    rw [BitVec.toNat_or, toNat_shl b0 (by decide), toNat_shl b1 (by decide), or_shl _ _ (by omega)]
    simp only [number, value, valueFrom, List.foldl_cons, List.foldl_nil]
    omega
  have bound := number_lt [b0, b1]
  simp only [List.length_cons, List.length_nil] at bound
  rw [BitVec.toInt_eq_toNat_of_lt (by omega), whole]

/-- The shifts are the number the four octets write. -/
theorem word_eq (b0 b1 b2 b3 : UInt8) : word b0 b1 b2 b3 = (number [b0, b1, b2, b3] : Nat) := by
  have byte0 := b0.toNat_lt
  have byte1 := b1.toNat_lt
  have byte2 := b2.toNat_lt
  have byte3 := b3.toNat_lt
  have low : (shl b1 16 ||| shl b2 8 ||| shl b3 0).toNat = b1.toNat * 2 ^ 16 + (b2.toNat * 2 ^ 8 + b3.toNat) := by
    rw [BitVec.toNat_or, BitVec.toNat_or, toNat_shl b1 (by decide), toNat_shl b2 (by decide),
      toNat_shl b3 (by decide), Nat.or_assoc, or_shl b2.toNat _ (by omega), or_shl b1.toNat _ (by omega)]
    omega
  rw [word, BitVec.toInt_eq_toNat_of_lt (by omega), low, toNat_shl b0 (by decide)]
  have digits : number [b0, b1, b2, b3] =
      b0.toNat * 2 ^ 24 + (b1.toNat * 2 ^ 16 + (b2.toNat * 2 ^ 8 + b3.toNat)) := by
    simp only [number, value, valueFrom, List.foldl_cons, List.foldl_nil]
    omega
  rw [digits]
  norm_cast

/-! ## The number -/

/-- The octets from a place on, and nothing past the end. -/
def octetsFrom (bytes : Bytes) (i width : Nat) : Bytes := (List.range width).map fun k => bytes.getD (i + k) 0

section Argument

variable {bytes rest : Bytes} {i j width arg info : Nat}

theorem need_eq_ok : need bytes i width = .ok () ↔ i + width ≤ bytes.length := by
  unfold need
  split
  · rename_i short
    simp only [reduceCtorEq, false_iff]
    omega
  · rename_i enough
    simp only [true_iff]
    omega

theorem need_eq_error (short : ¬ i + width ≤ bytes.length) : need bytes i width = .error .endedEarly := by
  rw [need, if_pos (Nat.not_le.mp short)]

/-- A number of so many octets. -/
def wide (bytes : Bytes) (i width : Nat) : Except CborError (Nat × Nat) := do
  need bytes i width
  return (number (octetsFrom bytes i width), i + width)

theorem wide_eq_ok : wide bytes i width = .ok (arg, j) ↔ arg < 256 ^ width ∧ Piece bytes (fixed width arg) i j := by
  have length : (octetsFrom bytes i width).length = width := by simp [octetsFrom]
  unfold wide
  constructor
  · intro read
    by_cases within : i + width ≤ bytes.length
    · rw [need_eq_ok.mpr within] at read
      have pair : (number (octetsFrom bytes i width), i + width) = (arg, j) := Except.ok.inj read
      simp only [Prod.mk.injEq] at pair
      obtain ⟨rfl, rfl⟩ := pair
      have bound := number_lt (octetsFrom bytes i width)
      have same := fixed_number (octetsFrom bytes i width)
      rw [length] at bound same
      rw [same]
      exact ⟨bound, piece_range 0 within⟩
    · rw [need_eq_error within] at read
      cases read
  · rintro ⟨bound, piece⟩
    have stop := piece.stop
    rw [length_fixed] at stop
    subst stop
    have within := piece.within
    have same : fixed width arg = octetsFrom bytes i width := piece.unique (piece_range 0 within)
    rw [need_eq_ok.mpr within, ← same, number_fixed bound]
    rfl

/-- What the numbers of the octets are, written out. -/
theorem number_octetsFrom :
    number (octetsFrom bytes i 1) = (bytes.getD (i + 0) 0).toNat ∧
      (number (octetsFrom bytes i 2) : Int) = (shl (bytes.getD (i + 0) 0) 8 ||| shl (bytes.getD (i + 1) 0) 0).toInt ∧
      (number (octetsFrom bytes i 4) : Int) = word (bytes.getD (i + 0) 0) (bytes.getD (i + 1) 0) (bytes.getD (i + 2) 0)
        (bytes.getD (i + 3) 0) ∧
      (number (octetsFrom bytes i 8) : Int) =
        word (bytes.getD (i + 0) 0) (bytes.getD (i + 1) 0) (bytes.getD (i + 2) 0) (bytes.getD (i + 3) 0) * 0x100000000 +
          word (bytes.getD (i + 4) 0) (bytes.getD (i + 5) 0) (bytes.getD (i + 6) 0) (bytes.getD (i + 7) 0) := by
  rw [two_octets, word_eq, word_eq]
  refine ⟨?_, rfl, rfl, ?_⟩
  · simp [octetsFrom, number, value, valueFrom, List.range_succ]
  · simp only [octetsFrom, List.range_succ, List.range_zero, List.nil_append, List.cons_append, List.map_cons,
      List.map_nil, number, value, valueFrom, List.foldl_cons, List.foldl_nil]
    push_cast
    ring

theorem argument_wide :
    argument bytes 24 i = wide bytes i 1 ∧ argument bytes 25 i = wide bytes i 2 ∧ argument bytes 26 i = wide bytes i 4 ∧
      argument bytes 27 i = (wide bytes i 8).bind fun read =>
        if read.1 < 2 ^ 53 then .ok read else .error .pastInteger := by
  obtain ⟨one, two, four, eight⟩ := @number_octetsFrom bytes i
  unfold argument wide
  refine ⟨?_, ?_, ?_, ?_⟩
  · rw [one]
    rfl
  · simp only [Nat.reduceLT, if_false, Nat.reduceEqDiff, if_true, ← two, Int.toNat_natCast]
  · simp only [Nat.reduceLT, if_false, Nat.reduceEqDiff, if_true, ← four, Int.toNat_natCast]
  · simp only [Nat.reduceLT, if_false, Nat.reduceEqDiff, if_true, ← eight, Int.toNat_natCast]
    by_cases within : i + 8 ≤ bytes.length
    · rw [need_eq_ok.mpr within]
      -- the higher word is past its bound exactly when the number is past 2^53
      have higher : 0x1fffff < word (bytes.getD (i + 0) 0) (bytes.getD (i + 1) 0) (bytes.getD (i + 2) 0)
          (bytes.getD (i + 3) 0) ↔ ¬ number (octetsFrom bytes i 8) < 2 ^ 53 := by
        rw [word_eq] at eight ⊢
        have low := number_lt [bytes.getD (i + 4) 0, bytes.getD (i + 5) 0, bytes.getD (i + 6) 0, bytes.getD (i + 7) 0]
        rw [word_eq] at eight
        simp only [List.length_cons, List.length_nil] at low
        omega
      by_cases past : number (octetsFrom bytes i 8) < 2 ^ 53
      · simp only [bind, Except.bind, pure, Except.pure, if_neg (higher.not.mpr (not_not.mpr past)), if_pos past]
      · simp only [bind, Except.bind, pure, Except.pure, if_pos (higher.mpr past), if_neg past]
        rfl
    · rw [need_eq_error within]
      rfl

theorem argument_iff (within : i ≤ bytes.length) :
    argument bytes info i = .ok (arg, j) ↔ ∃ rest, IsArgument info arg rest ∧ Piece bytes rest i j := by
  obtain ⟨one, two, four, eight⟩ := @argument_wide bytes i
  constructor
  · intro read
    by_cases direct : info < 24
    · rw [argument, if_pos direct] at read
      obtain ⟨rfl, rfl⟩ := Prod.mk.inj (Except.ok.inj read)
      exact ⟨[], .direct direct, piece_nil within⟩
    by_cases is24 : info = 24
    · rw [is24, one, wide_eq_ok] at read
      exact ⟨_, is24 ▸ .one read.1, read.2⟩
    by_cases is25 : info = 25
    · rw [is25, two, wide_eq_ok] at read
      exact ⟨_, is25 ▸ .two (read.1.trans_eq (by norm_num)), read.2⟩
    by_cases is26 : info = 26
    · rw [is26, four, wide_eq_ok] at read
      exact ⟨_, is26 ▸ .four (read.1.trans_eq (by norm_num)), read.2⟩
    by_cases is27 : info = 27
    · rw [is27, eight] at read
      cases its : wide bytes i 8 with
      | error e =>
          rw [its] at read
          cases read
      | ok pair =>
          rw [its, Except.bind] at read
          split at read
          · rename_i below
            rw [Except.ok.inj read] at its below
            exact ⟨_, is27 ▸ .eight below, (wide_eq_ok.mp its).2⟩
          · cases read
    · rw [argument, if_neg direct, if_neg is24, if_neg is25, if_neg is26, if_neg is27] at read
      cases read
  · rintro ⟨rest, its, piece⟩
    cases its with
    | direct small =>
        rw [argument, if_pos small, piece.stop]
        rfl
    | one small => rw [one, wide_eq_ok.mpr ⟨small, piece⟩]
    | two small => rw [two, wide_eq_ok.mpr ⟨small.trans_eq (by norm_num), piece⟩]
    | four small => rw [four, wide_eq_ok.mpr ⟨small.trans_eq (by norm_num), piece⟩]
    | eight small =>
        have read : wide bytes i 8 = .ok (arg, j) := wide_eq_ok.mpr ⟨small.trans (by norm_num), piece⟩
        rw [eight, read, Except.bind, if_pos small]

end Argument

/-! ## The head -/

theorem initial_parts {major info : Nat} (majors : major < 8) (infos : info < 32) :
    (initial major info >>> 5).toNat = major ∧ (initial major info &&& 0x1f).toNat = info := by
  have whole : (initial major info).toNat = 32 * major + info := by
    rw [initial, UInt8.toNat_ofNat']
    omega
  constructor
  · rw [UInt8.toNat_shiftRight, whole, Nat.shiftRight_eq_div_pow]
    show (32 * major + info) / 2 ^ 5 = major
    omega
  · rw [UInt8.toNat_and, whole]
    show (32 * major + info) &&& (2 ^ 5 - 1) = info
    rw [Nat.and_two_pow_sub_one_eq_mod]
    omega

theorem initial_of_parts (b : UInt8) : initial (b >>> 5).toNat (b &&& 0x1f).toNat = b := by
  have byte := b.toNat_lt
  have high : (b >>> 5).toNat = b.toNat / 32 := by
    rw [UInt8.toNat_shiftRight, Nat.shiftRight_eq_div_pow]
    rfl
  have low : (b &&& 0x1f).toNat = b.toNat % 32 := by
    rw [UInt8.toNat_and]
    show b.toNat &&& (2 ^ 5 - 1) = b.toNat % 32
    rw [Nat.and_two_pow_sub_one_eq_mod]
  have whole : 32 * (b.toNat / 32) + b.toNat % 32 = b.toNat := Nat.div_add_mod b.toNat 32
  rw [initial, high, low, whole, UInt8.ofNat_toNat]

theorem parts_lt (b : UInt8) : (b >>> 5).toNat < 8 ∧ (b &&& 0x1f).toNat < 32 := by
  have byte := b.toNat_lt
  constructor
  · rw [UInt8.toNat_shiftRight, Nat.shiftRight_eq_div_pow]
    show b.toNat / 2 ^ 5 < 8
    omega
  · rw [UInt8.toNat_and]
    exact Nat.and_lt_two_pow _ (by decide : (0x1f : UInt8).toNat < 2 ^ 5)

theorem IsArgument.lt {info arg : Nat} {rest : Bytes} (its : IsArgument info arg rest) : info < 32 ∧ arg < 2 ^ 53 := by
  cases its with
  | direct small => exact ⟨by omega, by omega⟩
  | one small => exact ⟨by decide, by omega⟩
  | two small => exact ⟨by decide, by omega⟩
  | four small => exact ⟨by decide, by omega⟩
  | eight small => exact ⟨by decide, small⟩

end OmarchyPool.Webauthn
