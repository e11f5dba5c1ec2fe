/-
# OmarchyPool.Lib.Ring -- the last so many names, each once

A bounded memory of names: a name that is there is not added again, and the oldest leaves once
there are more than `cap`.  How long a name stays is a matter of counting.  The names behind it
are all different, so as long as fewer than `cap` others are ever pushed it is not the one that
leaves (`Keeps.push`); and once `cap` new ones were pushed it has left (`pushAll_fresh`).
-/
import Mathlib.Data.Finset.Card
import Mathlib.Data.List.Nodup
import Mathlib.Tactic.Common

namespace OmarchyPool.Lib

set_option autoImplicit false
set_option linter.unusedSectionVars false

namespace Ring

variable {α : Type} [DecidableEq α]

def push (cap : Nat) (name : α) (ring : List α) : List α :=
  let ring := if name ∈ ring then ring else ring ++ [name]
  ring.drop (ring.length - cap)

/-- `name` is in the ring, and what stands behind it are different names of `others`. -/
def Keeps (name : α) (others : Finset α) (ring : List α) : Prop :=
  ∃ before after, ring = before ++ name :: after ∧ after.Nodup ∧ ∀ x ∈ after, x ∈ others

theorem Keeps.mem {name : α} {others : Finset α} {ring : List α} (keeps : Keeps name others ring) :
    name ∈ ring := by
  obtain ⟨before, after, rfl, -, -⟩ := keeps
  exact List.mem_append_right _ List.mem_cons_self

/-- What is dropped to bring the ring back to `cap` names stands before `name`. -/
theorem keeps_drop {cap : Nat} {name : α} {others : Finset α} (few : others.card < cap)
    {ring : List α} (keeps : Keeps name others ring) :
    Keeps name others (ring.drop (ring.length - cap)) := by
  obtain ⟨before, after, rfl, once, known⟩ := keeps
  have short : after.length ≤ others.card := by
    rw [← List.toFinset_card_of_nodup once]
    apply Finset.card_le_card
    intro x mem
    exact known x (List.mem_toFinset.mp mem)
  have atFront : (before ++ name :: after).length - cap ≤ before.length := by
    simp only [List.length_append, List.length_cons]
    omega
  refine ⟨before.drop ((before ++ name :: after).length - cap), after, ?_, once, known⟩
  rw [List.drop_append_of_le_length atFront]

theorem Keeps.push {cap : Nat} {name : α} {others : Finset α} (few : others.card < cap)
    {ring : List α} (keeps : Keeps name others ring) {new : α} (known : new ∈ others) :
    Keeps name others (push cap new ring) := by
  apply keeps_drop few
  split
  · exact keeps
  · rename_i fresh
    obtain ⟨before, after, rfl, once, all⟩ := keeps
    refine ⟨before, after ++ [new], by simp, ?_, ?_⟩
    · have notBehind : new ∉ after := fun mem => fresh (by simp [mem])
      simp only [List.nodup_append, once, List.nodup_singleton, true_and, List.mem_singleton]
      intro x mem y same
      rw [same]
      rintro rfl
      exact notBehind mem
    · intro x mem
      rcases List.mem_append.mp mem with old | last
      · exact all x old
      · rw [List.mem_singleton.mp last]
        exact known

/-- Pushing what is there changes nothing that matters. -/
theorem Keeps.push_self {cap : Nat} {name : α} {others : Finset α} (few : others.card < cap)
    {ring : List α} (keeps : Keeps name others ring) : Keeps name others (Ring.push cap name ring) := by
  apply keeps_drop few
  rw [if_pos keeps.mem]
  exact keeps

theorem keeps_push_new {cap : Nat} {name : α} {others : Finset α} (few : others.card < cap)
    {ring : List α} (fresh : name ∉ ring) : Keeps name others (push cap name ring) := by
  apply keeps_drop few
  rw [if_neg fresh]
  exact ⟨ring, [], rfl, List.nodup_nil, by simp⟩

theorem push_of_mem {cap : Nat} {name : α} {ring : List α} (short : ring.length ≤ cap)
    (mem : name ∈ ring) : push cap name ring = ring := by
  have nothing : ring.length - cap = 0 := Nat.sub_eq_zero_of_le short
  unfold push
  simp only [if_pos mem, nothing, List.drop_zero]

theorem push_length {cap : Nat} (name : α) (ring : List α) : (push cap name ring).length ≤ cap := by
  unfold push
  dsimp only
  rw [List.length_drop]
  omega

/-! ## New names, one after the other -/

def pushAll (cap : Nat) (names ring : List α) : List α :=
  names.foldl (fun ring name => push cap name ring) ring

theorem pushAll_length {cap : Nat} {ring : List α} (short : ring.length ≤ cap) (names : List α) :
    (pushAll cap names ring).length ≤ cap := by
  induction names generalizing ring with
  | nil => exact short
  | cons first rest ih => exact ih (push_length first ring)

theorem pushAll_append (cap : Nat) (names more ring : List α) :
    pushAll cap (names ++ more) ring = pushAll cap more (pushAll cap names ring) :=
  List.foldl_append

theorem push_new {cap : Nat} {name : α} {ring : List α} (fresh : name ∉ ring) :
    push cap name ring = (ring ++ [name]).drop ((ring ++ [name]).length - cap) := by
  unfold push
  rw [if_neg fresh]

theorem drop_drop_append {cap : Nat} (ring names : List α) :
    (ring.drop (ring.length - cap) ++ names).drop
        ((ring.drop (ring.length - cap) ++ names).length - cap) =
      (ring ++ names).drop ((ring ++ names).length - cap) := by
  rw [← List.drop_append_of_le_length (by omega), List.drop_drop]
  congr 1
  simp only [List.length_drop, List.length_append]
  omega

/-- Different names, none of which is in the ring: the last `cap` of them all are left. -/
theorem pushAll_new {cap : Nat} {names ring : List α} (short : ring.length ≤ cap)
    (once : names.Nodup) (fresh : ∀ x ∈ names, x ∉ ring) :
    pushAll cap names ring = (ring ++ names).drop ((ring ++ names).length - cap) := by
  induction names generalizing ring with
  | nil =>
      have all : (ring ++ []).length - cap = 0 := by simp; omega
      rw [all]
      simp [pushAll]
  | cons first rest ih =>
      obtain ⟨notLater, once⟩ := List.nodup_cons.mp once
      have here : pushAll cap (first :: rest) ring = pushAll cap rest (push cap first ring) := rfl
      rw [here, push_new (fresh first List.mem_cons_self), ih ?_ once ?_, drop_drop_append]
      · simp
      · simp only [List.length_drop]
        omega
      · intro x mem found
        have inRing := List.mem_of_mem_drop found
        rcases List.mem_append.mp inRing with old | last
        · exact fresh x (List.mem_cons_of_mem _ mem) old
        · exact notLater (List.mem_singleton.mp last ▸ mem)

end Ring

end OmarchyPool.Lib
