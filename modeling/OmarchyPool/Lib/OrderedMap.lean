/-
# OmarchyPool.Lib.OrderedMap -- a map that remembers the order of insertion

A map as a list of its entries, in the order their keys were first set.  Setting a key that
is there replaces its value in place; deleting and setting again moves it to the end.  A list
of entries with distinct keys is the map it builds (`ofList_of_nodup`), and what a fold of
updates leaves at one key is decided by the updates of that key alone (`get_foldl`).
-/
import Mathlib.Data.List.Nodup
import Mathlib.Tactic.Common

namespace OmarchyPool.Lib

set_option autoImplicit false

/-- The entries, in the order their keys were first set. -/
abbrev OrderedMap (κ β : Type) := List (κ × β)

namespace OrderedMap

variable {κ β γ : Type} [DecidableEq κ]

def get (key : κ) : OrderedMap κ β → Option β
  | [] => none
  | entry :: rest => if entry.1 = key then some entry.2 else get key rest

def set (key : κ) (value : β) : OrderedMap κ β → OrderedMap κ β
  | [] => [(key, value)]
  | entry :: rest => if entry.1 = key then (key, value) :: rest else entry :: set key value rest

def delete (key : κ) (map : OrderedMap κ β) : OrderedMap κ β := map.filter fun entry => entry.1 ≠ key

def ofList (entries : List (κ × β)) : OrderedMap κ β :=
  entries.foldl (fun map entry => set entry.1 entry.2 map) []

/-- No key twice. -/
def Valid (map : OrderedMap κ β) : Prop := (map.map Prod.fst).Nodup

/-! ## One key -/

theorem get_set (key other : κ) (value : β) (map : OrderedMap κ β) :
    get other (set key value map) = if key = other then some value else get other map := by
  induction map with
  | nil => simp [set, get]
  | cons entry rest ih =>
      by_cases here : entry.1 = key
      · subst here
        simp only [set, if_true, get]
        by_cases same : entry.1 = other <;> simp [same]
      · simp only [set, if_neg here, get, ih]
        by_cases same : key = other
        · subst same
          simp [here]
        · simp [same]

theorem get_delete (key other : κ) (map : OrderedMap κ β) :
    get other (delete key map) = if key = other then none else get other map := by
  induction map with
  | nil => simp [delete, get]
  | cons entry rest ih =>
      unfold delete at ih ⊢
      by_cases here : entry.1 = key
      · subst here
        rw [List.filter_cons_of_neg (by simp), ih]
        by_cases same : entry.1 = other <;> simp [same, get]
      · rw [List.filter_cons_of_pos (by simpa using here)]
        simp only [get, ih]
        by_cases same : key = other
        · subst same
          simp [here]
        · simp [same]

theorem mem_of_get {key : κ} {value : β} {map : OrderedMap κ β} (found : get key map = some value) :
    (key, value) ∈ map := by
  induction map with
  | nil => cases found
  | cons entry rest ih =>
      simp only [get] at found
      split at found
      · rename_i here
        subst here
        cases found
        exact List.mem_cons_self
      · exact List.mem_cons_of_mem _ (ih found)

theorem get_of_mem {key : κ} {value : β} {map : OrderedMap κ β} (valid : Valid map)
    (member : (key, value) ∈ map) : get key map = some value := by
  induction map with
  | nil => cases member
  | cons entry rest ih =>
      have ⟨fresh, tail⟩ := List.nodup_cons.mp valid
      rcases List.mem_cons.mp member with rfl | inRest
      · simp [get]
      · have other : entry.1 ≠ key := by
          rintro rfl
          exact fresh (List.mem_map.mpr ⟨_, inRest, rfl⟩)
        simp only [get, if_neg other]
        exact ih tail inRest

theorem get_eq_none {key : κ} {map : OrderedMap κ β} :
    get key map = none ↔ ∀ value, (key, value) ∉ map := by
  induction map with
  | nil => simp [get]
  | cons entry rest ih =>
      simp only [get]
      split
      · rename_i here
        subst here
        simp only [reduceCtorEq, false_iff, not_forall, not_not]
        exact ⟨entry.2, List.mem_cons_self⟩
      · rename_i other
        rw [ih]
        refine forall_congr' fun value => not_congr ?_
        rw [List.mem_cons]
        refine ⟨.inr, fun h => h.elim (fun same => absurd (by rw [← same]) other) id⟩

theorem get_map (f : β → γ) (key : κ) (map : OrderedMap κ β) :
    get key (List.map (fun entry => (entry.1, f entry.2)) map) = (get key map).map f := by
  induction map with
  | nil => rfl
  | cons entry rest ih =>
      simp only [List.map_cons, get, ih]
      split <;> rfl

/-! ## Building -/

theorem keys_set (key : κ) (value : β) (map : OrderedMap κ β) :
    (set key value map).map Prod.fst =
      if key ∈ map.map Prod.fst then map.map Prod.fst else map.map Prod.fst ++ [key] := by
  induction map with
  | nil => simp [set]
  | cons entry rest ih =>
      by_cases here : entry.1 = key
      · subst here
        simp [set]
      · simp only [set, if_neg here, List.map_cons, ih, List.mem_cons, Ne.symm here, false_or]
        split <;> simp

theorem Valid.set {map : OrderedMap κ β} (valid : Valid map) (key : κ) (value : β) :
    Valid (OrderedMap.set key value map) := by
  unfold Valid at valid ⊢
  rw [keys_set]
  split
  · exact valid
  · rename_i fresh
    refine List.nodup_append.mpr ⟨valid, List.nodup_singleton _, ?_⟩
    rintro a inMap b isKey rfl
    rw [List.mem_singleton.mp isKey] at inMap
    exact fresh inMap

theorem Valid.delete {map : OrderedMap κ β} (valid : Valid map) (key : κ) :
    Valid (OrderedMap.delete key map) :=
  valid.sublist (List.filter_sublist.map _)

theorem set_of_fresh {key : κ} (value : β) {map : OrderedMap κ β} (fresh : key ∉ map.map Prod.fst) :
    set key value map = map ++ [(key, value)] := by
  induction map with
  | nil => rfl
  | cons entry rest ih =>
      simp only [List.map_cons, List.mem_cons, not_or] at fresh
      simp only [set, if_neg (Ne.symm fresh.1), ih fresh.2, List.cons_append]

theorem ofList_of_nodup {entries : List (κ × β)} (distinct : (entries.map Prod.fst).Nodup) :
    ofList entries = entries := by
  suffices ∀ (done todo : List (κ × β)), ((done ++ todo).map Prod.fst).Nodup →
      todo.foldl (fun map entry => set entry.1 entry.2 map) done = done ++ todo by
    exact this [] entries distinct
  intro done todo
  induction todo generalizing done with
  | nil => simp
  | cons entry rest ih =>
      intro distinct
      have fresh : entry.1 ∉ done.map Prod.fst := by
        rw [List.map_append, List.nodup_append] at distinct
        intro inDone
        exact distinct.2.2 _ inDone entry.1 (by simp) rfl
      rw [List.foldl_cons, set_of_fresh entry.2 fresh, ih (done ++ [entry]) (by simpa using distinct)]
      simp

/-- What a lookup gives at some keys. -/
def pick (lookup : κ → Option β) (keys : List κ) : OrderedMap κ β :=
  keys.filterMap fun key => (lookup key).map fun value => (key, value)

theorem get_pick (lookup : κ → Option β) (keys : List κ) (key : κ) :
    get key (pick lookup keys) = if key ∈ keys then lookup key else none := by
  induction keys with
  | nil => rfl
  | cons first rest ih =>
      unfold pick at ih ⊢
      rw [List.filterMap_cons]
      cases there : lookup first with
      | none =>
          rw [Option.map_none]
          by_cases same : key = first
          · subst same
            simp [ih, there]
          · simp [ih, same]
      | some value =>
          rw [Option.map_some]
          by_cases same : key = first
          · subst same
            simp [get, there]
          · simp [get, ih, same, Ne.symm same]

omit [DecidableEq κ] in
theorem Valid.pick (lookup : κ → Option β) {keys : List κ} (distinct : keys.Nodup) :
    Valid (OrderedMap.pick lookup keys) := by
  induction keys with
  | nil => exact List.nodup_nil
  | cons first rest ih =>
      obtain ⟨fresh, tail⟩ := List.nodup_cons.mp distinct
      unfold OrderedMap.pick at ih ⊢
      rw [List.filterMap_cons]
      cases lookup first with
      | none => exact ih tail
      | some value =>
          refine List.nodup_cons.mpr ⟨?_, ih tail⟩
          intro member
          obtain ⟨entry, inRest, sameKey⟩ := List.mem_map.mp member
          obtain ⟨key, inKeys, isEntry⟩ := List.mem_filterMap.mp inRest
          obtain ⟨_, _, rfl⟩ := Option.map_eq_some_iff.mp isEntry
          obtain rfl : key = first := sameKey
          exact fresh inKeys

/-- Updates that each touch their own key: what they leave at one key is what the updates of
that key leave. -/
theorem get_foldl (update : OrderedMap κ β → γ → OrderedMap κ β) (at_ : γ → κ)
    (one : Option β → γ → Option β)
    (touches : ∀ map x key, get key (update map x) =
      if at_ x = key then one (get key map) x else get key map)
    (updates : List γ) (map : OrderedMap κ β) (key : κ) :
    get key (updates.foldl update map) =
      (updates.filter fun x => at_ x = key).foldl one (get key map) := by
  induction updates generalizing map with
  | nil => rfl
  | cons x rest ih =>
      rw [List.foldl_cons, ih, touches]
      by_cases here : at_ x = key
      · rw [List.filter_cons_of_pos (by simpa using here), List.foldl_cons, if_pos here]
      · rw [List.filter_cons_of_neg (by simpa using here), if_neg here]

end OrderedMap

end OmarchyPool.Lib
