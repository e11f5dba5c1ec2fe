/-
# OmarchyPool.Lib.Keyset -- pages after a key

Rows in the strict order of a key, read in pages: each page is the rows after the last key read, `limit`
of them at most.  What was read and what is left are a split of the rows, and the page after the split
is the front of what is left (`pageAfter_append`).
-/
import Mathlib

namespace OmarchyPool.Lib

set_option autoImplicit false

variable {α κ : Type} [LinearOrder κ] (key : α → κ)

/-- The rows after a key, all of them for none, `limit` at most. -/
def pageAfter (limit : Nat) (rows : List α) (after : Option κ) : List α :=
  (rows.filter fun r => after.all (· < key r)).take limit

/-- Each row's key is below the next one's. -/
def Ascending (rows : List α) : Prop := rows.Pairwise fun a b => key a < key b

variable {key}

theorem filter_after {done rest : List α} (ascending : Ascending key (done ++ rest)) :
    ((done ++ rest).filter fun r => (done.getLast?.map key).all (· < key r)) = rest := by
  obtain ⟨inDone, _, apart⟩ := List.pairwise_append.mp ascending
  cases isLast : done.getLast? with
  | none =>
      rw [List.getLast?_eq_none_iff] at isLast
      simp [isLast]
  | some last =>
      obtain ⟨front, rfl⟩ := List.getLast?_eq_some_iff.mp isLast
      rw [List.filter_append, List.filter_eq_nil_iff.mpr, List.filter_eq_self.mpr, List.nil_append]
      · intro r member
        simpa using apart last (by simp) r member
      · -- what was read is not after the last key read
        intro r member
        simp only [Option.map_some, Option.all_some, decide_eq_true_eq, not_lt]
        rcases List.mem_append.mp member with inFront | isLast'
        · exact le_of_lt ((List.pairwise_append.mp inDone).2.2 r inFront last (by simp))
        · rw [List.mem_singleton.mp isLast']

theorem pageAfter_append {done rest : List α} (ascending : Ascending key (done ++ rest)) (limit : Nat) :
    pageAfter key limit (done ++ rest) (done.getLast?.map key) = rest.take limit := by
  rw [pageAfter, filter_after ascending]

end OmarchyPool.Lib
