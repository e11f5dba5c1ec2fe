/-
# OmarchyPool.Lib.LeadingBits -- words that start alike

Two words agree on their first `n` bits (`Agree n`), the most significant first.  A mask of `n` leading ones,
shifted into place and nothing where the shift is the whole width, compares exactly these bits
(`masked_eq_iff`), and words written after one another agree where their parts do (`agree_append`).
-/
import Mathlib.Init

namespace OmarchyPool.Lib

set_option autoImplicit false

variable {w v : Nat}

/-- The first `n` bits are the same. -/
def Agree (n : Nat) (x y : BitVec w) : Prop := ∀ i, i < n → x.getMsbD i = y.getMsbD i

/-- A shift that is refused from the whole width on. -/
def checkedShl (x : BitVec w) (n : Nat) : Option (BitVec w) := if n < w then some (x <<< n) else none

/-- A mask of `n` leading ones. -/
def leadingMask (w n : Nat) : BitVec w := (checkedShl (BitVec.allOnes w) (w - n)).getD 0

theorem getMsbD_leadingMask {n : Nat} (fits : n ≤ w) (i : Nat) : (leadingMask w n).getMsbD i = decide (i < n) := by
  unfold leadingMask checkedShl
  split
  · rename_i shifts
    rw [Option.getD_some, BitVec.getMsbD_shiftLeft, BitVec.getMsbD_allOnes]
    congr 1
    apply propext
    omega
  · rename_i whole
    have none_ : n = 0 := by omega
    subst none_
    simp

/-- What is masked is equal where the leading bits agree. -/
theorem masked_eq_iff {n : Nat} (fits : n ≤ w) (x y : BitVec w) :
    x &&& leadingMask w n = y &&& leadingMask w n ↔ Agree n x y := by
  constructor
  · intro equal i below
    have bit := congrArg (BitVec.getMsbD · i) equal
    simpa [getMsbD_leadingMask fits, below] using bit
  · intro agree
    apply BitVec.eq_of_getMsbD_eq
    intro i _
    rw [BitVec.getMsbD_and, BitVec.getMsbD_and, getMsbD_leadingMask fits]
    by_cases below : i < n
    · rw [agree i below]
    · simp [below]

/-- Two words agree on their first part where that part is the same word. -/
theorem agree_high (x y : BitVec (v + w)) : Agree v x y ↔ x.extractLsb' w v = y.extractLsb' w v := by
  have bit : ∀ (z : BitVec (v + w)) (i : Nat), i < v → (z.extractLsb' w v).getMsbD i = z.getMsbD i := by
    intro z i below
    rw [BitVec.getMsbD_extractLsb', show v + w - (w + v - i) = i by omega]
    simp [below, show w + v - i ≤ v + w by omega]
  constructor
  · intro agree
    apply BitVec.eq_of_getMsbD_eq
    intro i below
    rw [bit x i below, bit y i below]
    exact agree i below
  · intro equal i below
    rw [← bit x i below, ← bit y i below, equal]

/-- Written after the same word, two words agree on the bits their own parts agree on. -/
theorem agree_append (high : BitVec v) (n : Nat) (x y : BitVec w) :
    Agree (v + n) (high ++ x) (high ++ y) ↔ Agree n x y := by
  constructor
  · intro agree i below
    have bit := agree (v + i) (by omega)
    simpa [BitVec.getMsbD_append] using bit
  · intro agree i below
    rw [BitVec.getMsbD_append, BitVec.getMsbD_append]
    by_cases inHigh : v ≤ i
    · rw [if_pos inHigh, if_pos inHigh]
      exact agree (i - v) (by omega)
    · rw [if_neg inHigh, if_neg inHigh]

end OmarchyPool.Lib
