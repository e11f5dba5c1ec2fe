/-
# OmarchyPool.Lib.Sorting -- a stable sort by a comparison

`sortBy` orders a list by a three-way comparison and keeps the order of what compares equal.
When the comparison tells the elements of a list apart, the order the list came in is
forgotten (`sortBy_eq_of_perm`).
-/
import Mathlib.Data.List.Sort

namespace OmarchyPool.Lib

set_option autoImplicit false

variable {α β : Type}

def sortBy (cmp : α → α → Ordering) (list : List α) : List α :=
  list.insertionSort fun x y => (cmp x y).isLE

/-- Elements compared by what a function reads of them. -/
theorem transCmp_on (cmp : β → β → Ordering) [Std.TransCmp cmp] (read : α → β) :
    Std.TransCmp fun x y => cmp (read x) (read y) where
  eq_swap := Std.OrientedCmp.eq_swap
  isLE_trans := Std.TransCmp.isLE_trans

theorem sortBy_perm (cmp : α → α → Ordering) (list : List α) : (sortBy cmp list).Perm list :=
  List.perm_insertionSort _ _

theorem sortBy_pairwise (cmp : α → α → Ordering) [Std.TransCmp cmp] (list : List α) :
    (sortBy cmp list).Pairwise fun x y => (cmp x y).isLE := by
  have : IsTrans α fun x y => (cmp x y).isLE := ⟨fun _ _ _ xy yz => Std.TransCmp.isLE_trans xy yz⟩
  have : Std.Total fun x y : α => (cmp x y).isLE := ⟨fun x y => by
    have swap : cmp y x = (cmp x y).swap := Std.OrientedCmp.eq_swap
    rw [swap]
    cases cmp x y <;> simp⟩
  exact List.pairwise_insertionSort _ _

theorem sortBy_eq_of_perm (cmp : α → α → Ordering) [Std.TransCmp cmp] {list list' : List α}
    (apart : ∀ x ∈ list, ∀ y ∈ list, cmp x y = .eq → x = y) (perm : list.Perm list') :
    sortBy cmp list = sortBy cmp list' := by
  refine List.Perm.eq_of_pairwise ?_ (sortBy_pairwise cmp list) (sortBy_pairwise cmp list')
    ((sortBy_perm cmp list).trans (perm.trans (sortBy_perm cmp list').symm))
  intro x y memX memY below above
  have memX : x ∈ list := (sortBy_perm cmp list).mem_iff.mp memX
  have memY : y ∈ list := perm.mem_iff.mpr ((sortBy_perm cmp list').mem_iff.mp memY)
  refine apart x memX y memY ?_
  have swap : cmp y x = (cmp x y).swap := Std.OrientedCmp.eq_swap
  rw [swap] at above
  revert below above
  cases cmp x y <;> simp

/-! ## The first of a sorted list -/

section First

variable (r : α → α → Prop) [DecidableRel r]

theorem head?_orderedInsert (a : α) (list : List α) :
    (list.orderedInsert r a).head? =
      some (list.head?.elim a fun first => if r a first then a else first) := by
  cases list with
  | nil => rfl
  | cons b rest =>
      rw [List.orderedInsert_cons]
      by_cases below : r a b <;> simp [below]

/-- An element below none of the others leaves the first where it is. -/
theorem head?_insertionSort_append {x : α} {list : List α} (above : ∀ a ∈ list, r a x) (some_ : list ≠ []) :
    ((list ++ [x]).insertionSort r).head? = (list.insertionSort r).head? := by
  induction list with
  | nil => exact absurd rfl some_
  | cons a rest ih =>
      rw [List.cons_append, List.insertionSort_cons, List.insertionSort_cons, head?_orderedInsert,
        head?_orderedInsert]
      by_cases empty : rest = []
      · subst empty
        have below : r a x := above a List.mem_cons_self
        simp [below]
      · rw [ih (fun b member => above b (List.mem_cons_of_mem _ member)) empty]

end First

end OmarchyPool.Lib
