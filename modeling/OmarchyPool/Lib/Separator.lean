/-
# OmarchyPool.Lib.Separator -- texts with a separator, read back

Two texts joined by a separator are read back when the separator is not in the first
(`split_first`), or not in the second (`split_last`).
-/
import Mathlib.Data.List.Basic

namespace OmarchyPool.Lib

set_option autoImplicit false

variable {α : Type} {sep : α} {front front' back back' : List α}

theorem split_first (plain : sep ∉ front) (plain' : sep ∉ front')
    (same : front ++ sep :: back = front' ++ sep :: back') : front = front' ∧ back = back' := by
  rcases List.append_eq_append_iff.mp same with ⟨rest, rfl, eq⟩ | ⟨rest, rfl, eq⟩
  · cases rest with
    | nil => simpa using eq
    | cons c rest =>
        simp only [List.cons_append, List.cons.injEq] at eq
        exact absurd (by simp [eq.1]) plain'
  · cases rest with
    | nil => simpa using eq.symm
    | cons c rest =>
        simp only [List.cons_append, List.cons.injEq] at eq
        exact absurd (by simp [eq.1]) plain

theorem split_last (plain : sep ∉ back) (plain' : sep ∉ back')
    (same : front ++ sep :: back = front' ++ sep :: back') : front = front' ∧ back = back' := by
  have reversed : back.reverse ++ sep :: front.reverse = back'.reverse ++ sep :: front'.reverse := by
    simpa using congrArg List.reverse same
  obtain ⟨backs, fronts⟩ := split_first (by simpa using plain) (by simpa using plain') reversed
  exact ⟨List.reverse_injective fronts, List.reverse_injective backs⟩

end OmarchyPool.Lib
