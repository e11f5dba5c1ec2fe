/-
# OmarchyPool.Lib.Piece -- a piece of a list

A list that stands in another from a place to a place (`Piece`): pieces one behind the other make a piece
(`Piece.append`), and a piece is made of its parts (`piece_append`).
-/
import Mathlib.Data.List.Basic

namespace OmarchyPool.Lib

set_option autoImplicit false

variable {α : Type}

/-- `part` stands in `whole` from `i` to `j`. -/
def Piece (whole part : List α) (i j : Nat) : Prop :=
  ∃ front back, whole = front ++ (part ++ back) ∧ front.length = i ∧ (front ++ part).length = j

variable {whole part part' : List α} {i j k n : Nat}

theorem piece_middle (front part back : List α) :
    Piece (front ++ (part ++ back)) part front.length (front.length + part.length) :=
  ⟨front, back, rfl, rfl, List.length_append⟩

theorem Piece.stop (piece : Piece whole part i j) : j = i + part.length := by
  obtain ⟨front, back, -, rfl, rfl⟩ := piece
  exact List.length_append

theorem Piece.within (piece : Piece whole part i j) : j ≤ whole.length := by
  obtain ⟨front, back, rfl, rfl, rfl⟩ := piece
  simp only [List.length_append]
  omega

theorem Piece.start_le (piece : Piece whole part i j) : i ≤ whole.length := by
  have stop := piece.stop
  have within := piece.within
  omega

theorem Piece.append (first : Piece whole part i j) (second : Piece whole part' j k) :
    Piece whole (part ++ part') i k := by
  obtain ⟨front, back, eq, rfl, rfl⟩ := first
  obtain ⟨front', back', eq', length, rfl⟩ := second
  rw [← List.append_assoc] at eq
  obtain ⟨rfl, rfl⟩ := List.append_inj (eq.symm.trans eq') length.symm
  exact ⟨front, back', by rw [eq]; simp, rfl, by simp⟩

theorem piece_append :
    Piece whole (part ++ part') i k ↔ Piece whole part i (i + part.length) ∧ Piece whole part' (i + part.length) k := by
  constructor
  · rintro ⟨front, back, rfl, rfl, rfl⟩
    exact ⟨⟨front, part' ++ back, by simp, rfl, by simp⟩, ⟨front ++ part, back, by simp, by simp, by simp⟩⟩
  · rintro ⟨first, second⟩
    exact first.append second

/-- What is taken at a place stands there. -/
theorem piece_take (within : i + n ≤ whole.length) : Piece whole ((whole.drop i).take n) i (i + n) := by
  refine ⟨whole.take i, (whole.drop i).drop n, ?_, ?_, ?_⟩
  · rw [List.take_append_drop, List.take_append_drop]
  · rw [List.length_take]
    omega
  · rw [List.length_append, List.length_take, List.length_take, List.length_drop]
    omega

theorem Piece.take_eq (piece : Piece whole part i j) : (whole.drop i).take part.length = part := by
  obtain ⟨front, back, rfl, rfl, rfl⟩ := piece
  rw [List.drop_left, List.take_left]

theorem Piece.getElem? (piece : Piece whole part i j) (inside : k < part.length) : whole[i + k]? = part[k]? := by
  obtain ⟨front, back, rfl, rfl, rfl⟩ := piece
  rw [List.getElem?_append_right (Nat.le_add_right _ _), Nat.add_sub_cancel_left, List.getElem?_append_left inside]

theorem Piece.unique (piece : Piece whole part i j) (other : Piece whole part' i j) : part = part' := by
  have length := piece.stop
  have length' := other.stop
  have same : part.length = part'.length := by omega
  rw [← piece.take_eq, same, other.take_eq]

/-- What stands at a place, place by place. -/
theorem piece_range (d : α) (within : i + n ≤ whole.length) :
    Piece whole ((List.range n).map fun k => whole.getD (i + k) d) i (i + n) := by
  have same : (List.range n).map (fun k => whole.getD (i + k) d) = (whole.drop i).take n := by
    apply List.ext_getElem
    · simp only [List.length_map, List.length_range, List.length_take, List.length_drop]
      omega
    · intro k inside _
      rw [List.length_map, List.length_range] at inside
      rw [List.getElem_map, List.getElem_range, List.getElem_take, List.getElem_drop, List.getD_eq_getElem?_getD,
        List.getElem?_eq_getElem (by omega)]
      rfl
  rw [same]
  exact piece_take within

theorem piece_nil (within : i ≤ whole.length) : Piece whole [] i i := by
  have taken := @piece_take α whole i 0 within
  rwa [List.take_zero] at taken

theorem piece_cons {a : α} (here : whole[i]? = some a) (rest : Piece whole part (i + 1) j) :
    Piece whole (a :: part) i j := by
  have inside := (List.getElem?_eq_some_iff.mp here).1
  have first : Piece whole [a] i (i + 1) := by
    have taken := @piece_take α whole i 1 inside
    rwa [List.drop_eq_getElem_cons inside, (List.getElem?_eq_some_iff.mp here).2, List.take_succ_cons, List.take_zero]
      at taken
  exact first.append rest

end OmarchyPool.Lib
