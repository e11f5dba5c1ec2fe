/-
# OmarchyPool.Lib.Keyed -- rows with a key each

A table whose rows have distinct keys, and a change of one row of it: what the row adds to a
sum over the table, and which of the rows' contributions count towards it.
-/
import Mathlib

namespace OmarchyPool.Lib

set_option autoImplicit false

variable {α β κ : Type} {key : α → κ} {l : List α}

/-- A sum grows by no more than the one row that grew. -/
theorem sum_le_of_one_row [DecidableEq κ] (nodup : (l.map key).Nodup) {before after : α → Nat} {k : κ} {u : Nat}
    (rows : ∀ a ∈ l, after a ≤ before a + if key a = k then u else 0) :
    (l.map after).sum ≤ (l.map before).sum + u := by
  induction l with
  | nil => simp
  | cons a rest ih =>
      simp only [List.map_cons, List.nodup_cons, List.sum_cons] at nodup ⊢
      have here := rows a (by simp)
      by_cases isRow : key a = k
      · have others : (rest.map after).sum ≤ (rest.map before).sum := by
          refine List.sum_le_sum fun b member => ?_
          have other : key b ≠ k := by
            intro same
            exact nodup.1 (List.mem_map.mpr ⟨b, member, same.trans isRow.symm⟩)
          simpa [other] using rows b (List.mem_cons_of_mem _ member)
        rw [if_pos isRow] at here
        omega
      · have others := ih nodup.2 fun b member => rows b (List.mem_cons_of_mem _ member)
        rw [if_neg isRow] at here
        omega

theorem sum_map_filter (p : α → Bool) (f : α → Nat) (l : List α) :
    ((l.filter p).map f).sum = (l.map fun a => if p a then f a else 0).sum := by
  induction l with
  | nil => rfl
  | cons a rest ih =>
      rw [List.filter_cons, List.map_cons, List.sum_cons, ← ih]
      split <;> simp

/-- Of what the rows give, only one row's counts. -/
theorem countP_flatMap_of_one_row (nodup : (l.map key).Nodup) {give : α → List β} {counts : β → Bool} {a : α}
    (member : a ∈ l) (others : ∀ b ∈ l, key b ≠ key a → (give b).countP counts = 0) :
    (l.flatMap give).countP counts = (give a).countP counts := by
  induction l with
  | nil => cases member
  | cons b rest ih =>
      simp only [List.map_cons, List.nodup_cons] at nodup
      rw [List.flatMap_cons, List.countP_append]
      rcases List.mem_cons.mp member with rfl | inRest
      · have none : (rest.flatMap give).countP counts = 0 := by
          refine List.countP_eq_zero.mpr fun event given => ?_
          obtain ⟨d, inRest, given⟩ := List.mem_flatMap.mp given
          have other : key d ≠ key a := fun same => nodup.1 (List.mem_map.mpr ⟨d, inRest, same⟩)
          exact List.countP_eq_zero.mp (others d (List.mem_cons_of_mem _ inRest) other) event given
        rw [none, Nat.add_zero]
      · have other : key b ≠ key a := fun same => nodup.1 (List.mem_map.mpr ⟨a, inRest, same.symm⟩)
        rw [others b (by simp) other, Nat.zero_add]
        exact ih nodup.2 inRest fun d inTail => others d (List.mem_cons_of_mem _ inTail)

end OmarchyPool.Lib
