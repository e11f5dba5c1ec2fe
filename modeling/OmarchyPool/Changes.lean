/-
# OmarchyPool.Changes -- what a diff says is the same from the changes alone

A diff compares two lists of sides by their keys.  With one row per source, name and
architecture in each of two selections, it makes no difference to what it lists whether it is
given the selections whole or only what each has and the other has not (`Changes.answer_eq`):
a row both have is in neither list, and its key can match no other row.

The two inputs come in different orders.  The lists are sorted at the end, by a collation
that tells the names of the index apart (`Collates`).
-/
import OmarchyPool.Diff
import OmarchyPool.Slots
import OmarchyPool.Tally

namespace OmarchyPool

open Lib

set_option autoImplicit false

/-! ## Keys -/

/-- A key is read back: the source is before its first NUL, the architecture after its last. -/
theorem slot_of_key {p q : Package} (known : p.source ∈ sources) (known' : q.source ∈ sources)
    (same : p.side.key = q.side.key) : p.slot = q.slot := by
  have plain : ∀ source ∈ sources, '\x00' ∉ source.toList := by decide
  have plainArch : ∀ arch : Arch, '\x00' ∉ arch.name.toList := by
    intro arch
    cases arch <;> decide
  have arches : ∀ a b : Arch, a.name.toList = b.name.toList → a = b := by
    intro a b
    cases a <;> cases b <;> decide
  have texts := congrArg String.toList same
  simp only [Side.key, Package.side, String.toList_append, List.append_assoc,
    show "\x00".toList = ['\x00'] from rfl, List.cons_append] at texts
  obtain ⟨source, rest⟩ := split_first (plain _ known) (plain _ known') texts
  obtain ⟨name, arch⟩ := split_last (plainArch _) (plainArch _) rest
  simp only [Package.slot, Prod.mk.injEq]
  exact ⟨String.toList_injective source, String.toList_injective name, arches _ _ arch⟩

/-- A key is made of what the sort compares. -/
theorem key_of_label {x y : Side} (same : x.label = y.label) : x.key = y.key := by
  simp only [Side.label, Prod.mk.injEq] at same
  simp only [Side.key, same.1, same.2.1, same.2.2]

theorem labels_of_keys {sides : List Side} (keys : (sides.map Side.key).Nodup) :
    (sides.map Side.label).Nodup := by
  unfold List.Nodup at keys ⊢
  rw [List.pairwise_map] at keys ⊢
  exact keys.imp fun apart same => apart (key_of_label same)

/-! ## Lists of distinct keys -/

section Keys

variable {before after : List Side} (keys : (before.map Side.key).Nodup)
  (keys' : (after.map Side.key).Nodup)

/-- The sides as the map of their keys. -/
def keyed (sides : List Side) : OrderedMap String Side := sides.map fun p => (p.key, p)

include keys in
theorem ofList_keyed : OrderedMap.ofList (before.map fun p => (p.key, p)) = keyed before :=
  OrderedMap.ofList_of_nodup (by simpa [List.map_map, Function.comp_def] using keys)

include keys in
theorem get_keyed {key : String} {p : Side} :
    (keyed before).get key = some p ↔ p ∈ before ∧ p.key = key := by
  have valid : OrderedMap.Valid (keyed before) := by
    simpa [OrderedMap.Valid, keyed, List.map_map, Function.comp_def] using keys
  constructor
  · intro found
    obtain ⟨q, member, eq⟩ := List.mem_map.mp (OrderedMap.mem_of_get found)
    cases eq
    exact ⟨member, rfl⟩
  · rintro ⟨member, rfl⟩
    exact OrderedMap.get_of_mem valid (List.mem_map.mpr ⟨p, member, rfl⟩)

theorem get_keyed_none {key : String} :
    (keyed before).get key = none ↔ ∀ p ∈ before, p.key ≠ key := by
  rw [OrderedMap.get_eq_none]
  constructor
  · rintro absent p member rfl
    exact absent p (List.mem_map.mpr ⟨p, member, rfl⟩)
  · intro absent p found
    obtain ⟨q, member, eq⟩ := List.mem_map.mp found
    cases eq
    exact absent p member rfl

theorem mem_newSides {p : Side} :
    p ∈ newSides (keyed before) (keyed after) ↔ p ∈ after ∧ ∀ q ∈ before, q.key ≠ p.key := by
  simp only [newSides, List.mem_map, List.mem_filter, Option.isNone_iff_eq_none, get_keyed_none,
    Prod.exists, exists_eq_right]
  constructor
  · rintro ⟨k, found, absent⟩
    obtain ⟨q, member, eq⟩ := List.mem_map.mp found
    cases eq
    exact ⟨member, absent⟩
  · rintro ⟨member, absent⟩
    exact ⟨p.key, List.mem_map.mpr ⟨p, member, rfl⟩, absent⟩

include keys' in
theorem keys_newSides : ((newSides (keyed before) (keyed after)).map Side.key).Nodup := by
  have shorter : (newSides (keyed before) (keyed after)).Sublist after := by
    have := (List.filter_sublist (l := keyed after)
      (p := fun e => ((keyed before).get e.1).isNone)).map Prod.snd
    simpa [newSides, keyed, List.map_map, Function.comp_def] using this
  exact keys'.sublist (shorter.map _)

include keys in
theorem mem_upgrades {u : Upgrade} :
    u ∈ upgrades (keyed before) (keyed after) ↔
      ∃ p ∈ after, ∃ was ∈ before, was.key = p.key ∧ upgradeOf was p = some u := by
  simp only [upgrades, List.mem_filterMap, Option.bind_eq_some_iff, Prod.exists]
  constructor
  · rintro ⟨k, p, found, was, got, eq⟩
    obtain ⟨q, member, same⟩ := List.mem_map.mp found
    cases same
    obtain ⟨member', key⟩ := (get_keyed keys).mp got
    exact ⟨p, member, was, member', key, eq⟩
  · rintro ⟨p, member, was, member', key, eq⟩
    exact ⟨p.key, p, List.mem_map.mpr ⟨p, member, rfl⟩, was, (get_keyed keys).mpr ⟨member', key⟩, eq⟩

/-- An upgrade keeps the name, the architecture and the source of its side. -/
theorem label_upgradeOf {was p : Side} {u : Upgrade} (is : upgradeOf was p = some u) :
    u.label = p.label := by
  unfold upgradeOf at is
  split at is
  · cases is
    rfl
  · cases is

include keys' in
theorem labels_upgrades : ((upgrades (keyed before) (keyed after)).map Upgrade.label).Nodup := by
  unfold List.Nodup
  rw [List.pairwise_map, upgrades, List.pairwise_filterMap]
  have distinct : (keyed after).Pairwise fun e e' => e.2.key ≠ e'.2.key := by
    rw [keyed, List.pairwise_map]
    exact List.pairwise_map.mp keys'
  refine distinct.imp ?_
  rintro ⟨k, p⟩ ⟨k', p'⟩ apart u isU u' isU' same
  obtain ⟨was, -, eq⟩ := Option.bind_eq_some_iff.mp isU
  obtain ⟨was', -, eq'⟩ := Option.bind_eq_some_iff.mp isU'
  refine apart (key_of_label ?_)
  rw [← label_upgradeOf eq, ← label_upgradeOf eq']
  exact same

end Keys

/-! ## The collation -/

/-- What the sort needs of `localeCompare`: a consistent order, in which no two names, sources
or architectures of the index are equal. -/
structure Collates (localeCompare : String → String → Ordering) (packages : List Package) : Prop where
  order : Std.TransCmp localeCompare
  names : ∀ p ∈ packages, ∀ q ∈ packages, localeCompare p.name q.name = .eq → p.name = q.name
  sources : ∀ p ∈ packages, ∀ q ∈ packages,
    localeCompare p.source q.source = .eq → p.source = q.source
  arches : ∀ a b : Arch, localeCompare a.name b.name = .eq → a.name = b.name

section Collation

variable {localeCompare : String → String → Ordering} {packages : List Package}
  (collates : Collates localeCompare packages)
include collates

theorem Collates.byName : Std.TransCmp (byName localeCompare) := by
  have := collates.order
  have names := transCmp_on localeCompare fun x : String × String × String => x.1
  have arches := transCmp_on localeCompare fun x : String × String × String => x.2.1
  have sources := transCmp_on localeCompare fun x : String × String × String => x.2.2
  exact inferInstanceAs (Std.TransCmp (compareLex _ (compareLex _ _)))

theorem Collates.label_eq {x y : String × String × String}
    (isX : ∃ p ∈ packages, p.side.label = x) (isY : ∃ p ∈ packages, p.side.label = y)
    (same : OmarchyPool.byName localeCompare x y = .eq) : x = y := by
  obtain ⟨p, memP, rfl⟩ := isX
  obtain ⟨q, memQ, rfl⟩ := isY
  simp only [OmarchyPool.byName, Ordering.then_eq_eq, Side.label, Package.side] at same
  simp only [Side.label, Package.side, Prod.mk.injEq]
  exact ⟨collates.names p memP q memQ same.1, collates.arches _ _ same.2.1,
    collates.sources p memP q memQ same.2.2⟩

/-- A list whose labels are distinct labels of the index is sorted the same in any order. -/
theorem Collates.sort_eq {α : Type} {label : α → String × String × String} {list list' : List α}
    (distinct : (list.map label).Nodup)
    (known : ∀ x ∈ list, ∃ p ∈ packages, p.side.label = label x) (perm : list.Perm list') :
    sortByName localeCompare label list = sortByName localeCompare label list' := by
  have := collates.byName
  have := transCmp_on (OmarchyPool.byName localeCompare) label
  refine sortBy_eq_of_perm _ ?_ perm
  intro x memX y memY same
  exact List.inj_on_of_nodup_map distinct memX memY
    (collates.label_eq (known x memX) (known y memY) same)

end Collation

/-! ## From the selections to their changes -/

/-- The rows a set of ids names, of one architecture when one is asked. -/
def asked (packages : List Package) (arch : Option Arch) (ids : Finset PackageId) : List Package :=
  (rowsOf packages ids).filter fun p => arch.all (· == p.repoArch)

theorem mem_asked {packages : List Package} {arch : Option Arch} {ids : Finset PackageId} {p : Package} :
    p ∈ asked packages arch ids ↔ p ∈ packages ∧ p.id ∈ ids ∧ arch.all (· == p.repoArch) = true := by
  simp only [asked, rowsOf, List.mem_filter, decide_eq_true_eq, and_assoc]

theorem nodup_asked {packages : List Package} (distinct : (packages.map (·.id)).Nodup)
    (arch : Option Arch) (ids : Finset PackageId) : (asked packages arch ids).Nodup :=
  (distinct.of_map.filter _).filter _

/-- Two selections of an index with one row per slot each. -/
structure Changes (packages : List Package) (before after : Finset PackageId) : Prop where
  distinct : (packages.map (·.id)).Nodup
  known : ∀ p ∈ packages, p.source ∈ sources
  before : OneRowPerSlot packages before
  after : OneRowPerSlot packages after

section Index

variable {packages : List Package} (distinct : (packages.map (·.id)).Nodup)
  (known : ∀ p ∈ packages, p.source ∈ sources)
include distinct known

theorem keys_asked {ids : Finset PackageId} (one : OneRowPerSlot packages ids) (arch : Option Arch) :
    (((asked packages arch ids).map Package.side).map Side.key).Nodup := by
  rw [List.map_map]
  refine List.Nodup.map_on ?_ (nodup_asked distinct _ _)
  intro p memP q memQ same
  obtain ⟨inP, idP, -⟩ := mem_asked.mp memP
  obtain ⟨inQ, idQ, -⟩ := mem_asked.mp memQ
  refine List.inj_on_of_nodup_map distinct inP inQ ?_
  exact one p inP q inQ idP idQ (slot_of_key (known p inP) (known q inQ) same)

end Index

theorem Changes.symm {packages : List Package} {before after : Finset PackageId}
    (changes : Changes packages before after) : Changes packages after before :=
  ⟨changes.distinct, changes.known, changes.after, changes.before⟩

section Equal

variable {packages : List Package} {before after : Finset PackageId}
  (changes : Changes packages before after) (arch : Option Arch)
include changes

/-- A row one selection has, and whose key the other has not: the same from the changes. -/
theorem Changes.mem_new {x : Side} :
    (x ∈ (asked packages arch after).map Package.side ∧
        ∀ y ∈ (asked packages arch before).map Package.side, y.key ≠ x.key) ↔
      x ∈ (asked packages arch (after \ before)).map Package.side ∧
        ∀ y ∈ (asked packages arch (before \ after)).map Package.side, y.key ≠ x.key := by
  simp only [List.mem_map, mem_asked, Finset.mem_sdiff]
  constructor
  · rintro ⟨⟨p, ⟨inP, idP, archP⟩, rfl⟩, absent⟩
    refine ⟨⟨p, ⟨inP, ⟨idP, fun old => ?_⟩, archP⟩, rfl⟩, ?_⟩
    · exact absent p.side ⟨p, ⟨inP, old, archP⟩, rfl⟩ rfl
    · rintro _ ⟨q, ⟨inQ, idQ, archQ⟩, rfl⟩
      exact absent q.side ⟨q, ⟨inQ, idQ.1, archQ⟩, rfl⟩
  · rintro ⟨⟨p, ⟨inP, idP, archP⟩, rfl⟩, absent⟩
    refine ⟨⟨p, ⟨inP, idP.1, archP⟩, rfl⟩, ?_⟩
    rintro _ ⟨q, ⟨inQ, idQ, archQ⟩, rfl⟩ same
    -- A row of both selections is the only one of its slot in each.
    by_cases kept : q.id ∈ after
    · have equal := changes.after q inQ p inP kept idP.1
        (slot_of_key (changes.known q inQ) (changes.known p inP) same)
      exact idP.2 (equal ▸ idQ)
    · exact absent q.side ⟨q, ⟨inQ, ⟨idQ, kept⟩, archQ⟩, rfl⟩ same

/-- Two rows of one key with other bytes are rows the two selections do not share. -/
theorem Changes.mem_upgraded {u : Upgrade} :
    (∃ p ∈ (asked packages arch after).map Package.side,
        ∃ was ∈ (asked packages arch before).map Package.side,
          was.key = p.key ∧ upgradeOf was p = some u) ↔
      ∃ p ∈ (asked packages arch (after \ before)).map Package.side,
        ∃ was ∈ (asked packages arch (before \ after)).map Package.side,
          was.key = p.key ∧ upgradeOf was p = some u := by
  simp only [List.mem_map, mem_asked, Finset.mem_sdiff]
  constructor
  · rintro ⟨_, ⟨p, ⟨inP, idP, archP⟩, rfl⟩, _, ⟨was, ⟨inW, idW, archW⟩, rfl⟩, key, is⟩
    have slot := slot_of_key (changes.known was inW) (changes.known p inP) key
    have differ : was.id ≠ p.id := by
      intro same
      obtain rfl := List.inj_on_of_nodup_map changes.distinct inW inP same
      simp [upgradeOf] at is
    refine ⟨_, ⟨p, ⟨inP, ⟨idP, fun old => ?_⟩, archP⟩, rfl⟩, _,
      ⟨was, ⟨inW, ⟨idW, fun new => ?_⟩, archW⟩, rfl⟩, key, is⟩
    · exact differ (changes.before was inW p inP idW old slot)
    · exact differ (changes.after was inW p inP new idP slot)
  · rintro ⟨x, ⟨p, ⟨inP, idP, archP⟩, isP⟩, y, ⟨was, ⟨inW, idW, archW⟩, isW⟩, rest⟩
    exact ⟨x, ⟨p, ⟨inP, idP.1, archP⟩, isP⟩, y, ⟨was, ⟨inW, idW.1, archW⟩, isW⟩, rest⟩

/-- The answer from the changes, in any order, is the answer from the whole lists. -/
theorem Changes.answer_eq {localeCompare : String → String → Ordering}
    (collates : Collates localeCompare packages) {fold : DiffSides}
    (removed : fold.before.Perm ((asked packages arch (before \ after)).map Package.side))
    (added : fold.after.Perm ((asked packages arch (after \ before)).map Package.side))
    (countBefore : fold.countBefore = (asked packages arch before).length)
    (countAfter : fold.countAfter = (asked packages arch after).length) :
    answer localeCompare fold = answer localeCompare
      ⟨(asked packages arch before).map Package.side, (asked packages arch after).map Package.side,
        ((asked packages arch before).map Package.side).length,
        ((asked packages arch after).map Package.side).length⟩ := by
  have fewer : OneRowPerSlot packages (before \ after) := changes.before.mono Finset.sdiff_subset
  have fewer' : OneRowPerSlot packages (after \ before) := changes.after.mono Finset.sdiff_subset
  have whole := keys_asked changes.distinct changes.known changes.before arch
  have whole' := keys_asked changes.distinct changes.known changes.after arch
  have keys : (fold.before.map Side.key).Nodup :=
    (removed.map _).nodup_iff.mpr (keys_asked changes.distinct changes.known fewer arch)
  have keys' : (fold.after.map Side.key).Nodup :=
    (added.map _).nodup_iff.mpr (keys_asked changes.distinct changes.known fewer' arch)
  have known : ∀ {x : Side} {ids : Finset PackageId}, x ∈ (asked packages arch ids).map Package.side →
      ∃ p ∈ packages, p.side.label = x.label := by
    intro x ids member
    obtain ⟨p, isAsked, rfl⟩ := List.mem_map.mp member
    exact ⟨p, (mem_asked.mp isAsked).1, rfl⟩
  have new : (newSides (keyed fold.before) (keyed fold.after)).Perm
      (newSides (keyed ((asked packages arch before).map Package.side))
        (keyed ((asked packages arch after).map Package.side))) := by
    refine (List.perm_ext_iff_of_nodup (keys_newSides keys').of_map (keys_newSides whole').of_map).mpr ?_
    intro x
    rw [mem_newSides, mem_newSides, changes.mem_new, added.mem_iff]
    exact and_congr_right fun _ => forall_congr' fun y => by rw [removed.mem_iff]
  have gone : (newSides (keyed fold.after) (keyed fold.before)).Perm
      (newSides (keyed ((asked packages arch after).map Package.side))
        (keyed ((asked packages arch before).map Package.side))) := by
    refine (List.perm_ext_iff_of_nodup (keys_newSides keys).of_map (keys_newSides whole).of_map).mpr ?_
    intro x
    rw [mem_newSides, mem_newSides, changes.symm.mem_new, removed.mem_iff]
    exact and_congr_right fun _ => forall_congr' fun y => by rw [added.mem_iff]
  have upgraded : (upgrades (keyed fold.before) (keyed fold.after)).Perm
      (upgrades (keyed ((asked packages arch before).map Package.side))
        (keyed ((asked packages arch after).map Package.side))) := by
    refine (List.perm_ext_iff_of_nodup (labels_upgrades keys').of_map (labels_upgrades whole').of_map).mpr ?_
    intro u
    rw [mem_upgrades keys, mem_upgrades whole, changes.mem_upgraded]
    simp only [removed.mem_iff, added.mem_iff]
  simp only [answer, ofList_keyed keys, ofList_keyed keys', ofList_keyed whole, ofList_keyed whole',
    List.length_map]
  rw [countBefore, countAfter, new.length_eq, gone.length_eq, upgraded.length_eq,
    collates.sort_eq (labels_of_keys (keys_newSides keys')) ?_ new,
    collates.sort_eq (labels_of_keys (keys_newSides keys)) ?_ gone,
    collates.sort_eq (labels_upgrades keys') ?_ upgraded]
  · intro u isUpgrade
    obtain ⟨p, member, was, -, -, is⟩ := (mem_upgrades keys).mp isUpgrade
    rw [label_upgradeOf is]
    exact known (added.mem_iff.mp member)
  · intro x isGone
    exact known (removed.mem_iff.mp (mem_newSides.mp isGone).1)
  · intro x isNew
    exact known (added.mem_iff.mp (mem_newSides.mp isNew).1)

end Equal

end OmarchyPool
