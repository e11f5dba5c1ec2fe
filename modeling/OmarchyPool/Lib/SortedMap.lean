/-
# OmarchyPool.Lib.SortedMap -- a map by the order of its keys

A map as the list of its entries in strictly increasing order of their keys, so that two maps are equal
exactly when they hold the same at every key (`ext_get`).  What an operation does is said at one key
(`get_insert`, `get_erase`, `get_ofList`).
-/
import Mathlib.Data.List.Sort
import OmarchyPool.Lib.OrderedMap

namespace OmarchyPool.Lib

set_option autoImplicit false

structure SortedMap (κ β : Type) [LinearOrder κ] where
  entries : List (κ × β)
  sorted : entries.Pairwise fun a b => a.1 < b.1

namespace SortedMap

variable {κ β : Type} [LinearOrder κ]

instance [DecidableEq β] : DecidableEq (SortedMap κ β) := fun a b =>
  decidable_of_iff (a.entries = b.entries) (by cases a; cases b; simp)

def get (key : κ) (map : SortedMap κ β) : Option β := OrderedMap.get key map.entries

def empty : SortedMap κ β := ⟨[], List.Pairwise.nil⟩

/-- Where the key belongs, replacing what is there. -/
def place (key : κ) (value : β) : List (κ × β) → List (κ × β)
  | [] => [(key, value)]
  | entry :: rest =>
      if key < entry.1 then (key, value) :: entry :: rest
      else if key = entry.1 then (key, value) :: rest
      else entry :: place key value rest

theorem mem_place {key : κ} {value : β} {entries : List (κ × β)} {entry : κ × β}
    (member : entry ∈ place key value entries) : entry = (key, value) ∨ entry ∈ entries := by
  induction entries with
  | nil => simpa [place] using member
  | cons first rest ih =>
      unfold place at member
      split at member
      · exact List.mem_cons.mp member
      · split at member
        · rcases List.mem_cons.mp member with here | later
          · exact .inl here
          · exact .inr (List.mem_cons_of_mem _ later)
        · rcases List.mem_cons.mp member with rfl | later
          · exact .inr List.mem_cons_self
          · exact (ih later).imp_right (List.mem_cons_of_mem _)

theorem sorted_place (key : κ) (value : β) {entries : List (κ × β)}
    (sorted : entries.Pairwise fun a b => a.1 < b.1) :
    (place key value entries).Pairwise fun a b => a.1 < b.1 := by
  induction entries with
  | nil => exact List.pairwise_singleton _ _
  | cons first rest ih =>
      obtain ⟨least, tail⟩ := List.pairwise_cons.mp sorted
      unfold place
      split
      · rename_i before
        refine List.pairwise_cons.mpr ⟨fun entry member => ?_, sorted⟩
        rcases List.mem_cons.mp member with rfl | later
        · exact before
        · exact lt_trans before (least entry later)
      · rename_i notBefore
        split
        · rename_i here
          refine List.pairwise_cons.mpr ⟨fun entry member => ?_, tail⟩
          rw [here]
          exact least entry member
        · rename_i notHere
          refine List.pairwise_cons.mpr ⟨fun entry member => ?_, ih tail⟩
          rcases mem_place member with rfl | later
          · exact lt_of_le_of_ne (not_lt.mp notBefore) (Ne.symm notHere)
          · exact least entry later

def insert (key : κ) (value : β) (map : SortedMap κ β) : SortedMap κ β :=
  ⟨place key value map.entries, sorted_place key value map.sorted⟩

def erase (key : κ) (map : SortedMap κ β) : SortedMap κ β :=
  ⟨OrderedMap.delete key map.entries, map.sorted.sublist List.filter_sublist⟩

/-- Each entry inserted in turn. -/
def extend (map : SortedMap κ β) (entries : List (κ × β)) : SortedMap κ β :=
  entries.foldl (fun map entry => map.insert entry.1 entry.2) map

def ofList (entries : List (κ × β)) : SortedMap κ β := empty.extend entries

/-! ## One key -/

theorem get_place (key other : κ) (value : β) {entries : List (κ × β)}
    (sorted : entries.Pairwise fun a b => a.1 < b.1) :
    OrderedMap.get other (place key value entries) =
      if key = other then some value else OrderedMap.get other entries := by
  induction entries with
  | nil => simp [place, OrderedMap.get]
  | cons first rest ih =>
      obtain ⟨-, tail⟩ := List.pairwise_cons.mp sorted
      unfold place
      split
      · rfl
      · rename_i notBefore
        split
        · rename_i here
          subst here
          by_cases same : first.1 = other <;> simp [OrderedMap.get, same]
        · rename_i notHere
          simp only [OrderedMap.get, ih tail]
          by_cases same : first.1 = other
          · subst same
            simp [notHere]
          · simp [same]

@[simp] theorem get_empty (key : κ) : (empty : SortedMap κ β).get key = none := rfl

theorem get_insert (key other : κ) (value : β) (map : SortedMap κ β) :
    (map.insert key value).get other = if key = other then some value else map.get other :=
  get_place key other value map.sorted

theorem get_erase (key other : κ) (map : SortedMap κ β) :
    (map.erase key).get other = if key = other then none else map.get other :=
  OrderedMap.get_delete key other map.entries

/-- Entries with distinct keys take the place of what was there at theirs. -/
theorem get_extend {entries : List (κ × β)} (distinct : OrderedMap.Valid entries) (map : SortedMap κ β) (key : κ) :
    (map.extend entries).get key = (OrderedMap.get key entries).or (map.get key) := by
  induction entries generalizing map with
  | nil => rfl
  | cons entry rest ih =>
      obtain ⟨fresh, tail⟩ := List.nodup_cons.mp distinct
      show ((map.insert entry.1 entry.2).extend rest).get key = _
      rw [ih tail, get_insert]
      simp only [OrderedMap.get]
      by_cases same : entry.1 = key
      · subst same
        have absent : OrderedMap.get entry.1 rest = none := by
          rw [OrderedMap.get_eq_none]
          intro value member
          exact fresh (List.mem_map.mpr ⟨_, member, rfl⟩)
        simp [absent]
      · simp [same]

theorem valid (map : SortedMap κ β) : OrderedMap.Valid map.entries :=
  List.pairwise_map.mpr (map.sorted.imp fun before => ne_of_lt before)

theorem mem_entries {map : SortedMap κ β} {entry : κ × β} :
    entry ∈ map.entries ↔ map.get entry.1 = some entry.2 :=
  ⟨fun member => OrderedMap.get_of_mem map.valid member, OrderedMap.mem_of_get⟩

theorem ext_get {a b : SortedMap κ β} (same : ∀ key, a.get key = b.get key) : a = b := by
  have asymm : Std.Asymm fun a b : κ × β => a.1 < b.1 := ⟨fun _ _ => lt_asymm⟩
  have irrefl : Std.Irrefl fun a b : κ × β => a.1 < b.1 := ⟨fun _ => lt_irrefl _⟩
  have entries : a.entries = b.entries := by
    apply a.sorted.eq_of_mem_iff b.sorted
    intro entry
    rw [mem_entries, mem_entries, same]
  cases a
  cases b
  simpa using entries

/-- A map is what its entries build. -/
theorem ofList_entries (map : SortedMap κ β) : ofList map.entries = map := by
  apply ext_get
  intro key
  rw [ofList, get_extend map.valid, get_empty, Option.or_none]
  rfl

end SortedMap

end OmarchyPool.Lib
