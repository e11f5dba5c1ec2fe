/-
# OmarchyPool.Slots -- one row per source, name and architecture

The batch of a request takes out of its base every row an added package replaces: one of the
same source, name and architecture.  So a selection keeps one row per slot across bases of any
kind, an older release's and another ring's included, and across a promotion of one
architecture, whose halves share no slot.

It never compares the adds with one another.  Two rows of one slot in one request both go in
(`slots_two_adds`); where no request adds two, the rings keep one row per slot
(`slots_of_addsApart`).
-/
import OmarchyPool.Exact

namespace OmarchyPool

open Lib

set_option autoImplicit false

/-- At most one of the ids per source, name and architecture. -/
def OneRowPerSlot (packages : List Package) (ids : Finset PackageId) : Prop :=
  ∀ p ∈ packages, ∀ q ∈ packages, p.id ∈ ids → q.id ∈ ids → p.slot = q.slot → p.id = q.id

instance (packages : List Package) (ids : Finset PackageId) : Decidable (OneRowPerSlot packages ids) := by
  unfold OneRowPerSlot
  infer_instance

/-- The ids a request adds to an index. -/
def CreateRelease.addsOf (body : CreateRelease) (db : Db) : List PackageId :=
  db.addedIds body.add (body.removeArch.bind isRepoArch)

/-- The rows a request adds are of different slots. -/
def AddsApart (body : CreateRelease) (w : World) : Prop :=
  ∀ p ∈ w.db.packages, ∀ q ∈ w.db.packages, p.id ∈ body.addsOf w.db → q.id ∈ body.addsOf w.db →
    p.slot = q.slot → p.id = q.id

instance (body : CreateRelease) (w : World) : Decidable (AddsApart body w) := by
  unfold AddsApart
  infer_instance

namespace OneRowPerSlot

variable {packages : List Package} {ids ids' : Finset PackageId}

theorem empty : OneRowPerSlot packages ∅ := by
  intro p _ q _ inP
  simp at inP

theorem mono (one : OneRowPerSlot packages ids) (fewer : ids' ⊆ ids) :
    OneRowPerSlot packages ids' :=
  fun p memP q memQ inP inQ => one p memP q memQ (fewer inP) (fewer inQ)

end OneRowPerSlot

section Target

variable {db : Db} (distinct : (db.packages.map (·.id)).Nodup)
include distinct

/-- One architecture of one selection and the other of another: the halves share no slot. -/
theorem OneRowPerSlot.oneArch {base own : Finset PackageId} (one : OneRowPerSlot db.packages base)
    (one' : OneRowPerSlot db.packages own) (arch : Arch) :
    OneRowPerSlot db.packages
      (db.select base (·.repoArch == arch) ∪ db.select own (·.repoArch != arch)) := by
  intro p memP q memQ inP inQ same
  rw [Finset.mem_union, Db.mem_select distinct memP, Db.mem_select distinct memP] at inP
  rw [Finset.mem_union, Db.mem_select distinct memQ, Db.mem_select distinct memQ] at inQ
  have arches : p.repoArch = q.repoArch := congrArg (·.2.2) same
  rcases inP with ⟨inBase, isArch⟩ | ⟨inOwn, isOther⟩ <;>
    rcases inQ with ⟨inBase', isArch'⟩ | ⟨inOwn', isOther'⟩
  · exact one p memP q memQ inBase inBase' same
  · simp_all
  · simp_all
  · exact one' p memP q memQ inOwn inOwn' same

/-- The target of a batch: what the adds replace has left the base. -/
theorem OneRowPerSlot.target {b : CreateBatch} (base : OneRowPerSlot db.packages (b.base.rows db))
    (adds : ∀ p ∈ db.packages, ∀ q ∈ db.packages, p.id ∈ b.added → q.id ∈ b.added →
      p.slot = q.slot → p.id = q.id) : OneRowPerSlot db.packages (b.target db) := by
  have replaced : ∀ p ∈ db.packages, ∀ q ∈ db.packages,
      (!b.removes p && !b.replaces db p) = true → q.id ∈ b.added → p.slot ≠ q.slot := by
    intro p memP q memQ stays isAdded same
    have : b.replaces db p = true := List.any_eq_true.mpr ⟨q, memQ, by simp [isAdded, same]⟩
    simp [this] at stays
  intro p memP q memQ inP inQ same
  simp only [CreateBatch.target, Finset.mem_union, Db.mem_select distinct memP, List.mem_toFinset] at inP
  simp only [CreateBatch.target, Finset.mem_union, Db.mem_select distinct memQ, List.mem_toFinset] at inQ
  rcases inP with ⟨inBase, stays⟩ | isAdded <;> rcases inQ with ⟨inBase', stays'⟩ | isAdded'
  · exact base p memP q memQ inBase inBase' same
  · exact absurd same (replaced p memP q memQ stays isAdded')
  · exact absurd same.symm (replaced q memQ p memP stays' isAdded)
  · exact adds p memP q memQ isAdded isAdded' same

end Target

/-- Every release's selection has one row per slot, over an index that does not change. -/
structure Slotted (packages : List Package) (w : World) : Prop where
  index : w.db.packages = packages
  distinct : (packages.map (·.id)).Nodup
  selections : ∀ r ∈ w.db.releases, OneRowPerSlot packages (w.selection r.id)

theorem Slotted.stable {packages : List Package} {w w' : World} (settled : Recounted w w')
    (slotted : Slotted packages w) : Slotted packages w' where
  index := settled.packages.trans slotted.index
  distinct := slotted.distinct
  selections := by
    intro r member
    obtain ⟨r₀, member₀, eq⟩ := settled.releases.symm.exists_fixed member
    rw [settled.selection, ← Release.id_eq eq]
    exact slotted.selections r₀ member₀

theorem Slotted.live {packages : List Package} {w : World} (slotted : Slotted packages w)
    {floor : Ring → Nat} (inv : Exact floor w) (ring : Ring) :
    OneRowPerSlot packages (w.db.ringPackages ring) := by
  cases head : w.db.ringHeads ring with
  | none =>
      rw [inv.idle ring head]
      exact .empty
  | some id =>
      obtain ⟨r, member, rfl, -⟩ := inv.ordered.head_row head
      rw [inv.live ring r.id head]
      exact slotted.selections r (Db.mem_ofRing.mp member).1

theorem Slotted.base {packages : List Package} {now atBase : World}
    (slotted : Slotted packages now) {floor : Ring → Nat} (inv : Exact floor now)
    (settled : Settled atBase now) {ring : Ring} {onlyArch : Option Arch} {source parent : Option Release}
    {base : Members} (read : BaseRead (fun id w => Flagged w id) ring atBase onlyArch source parent base) :
    OneRowPerSlot packages (base.rows now.db) := by
  have scoped_ : ∀ inner : Members, OneRowPerSlot packages (inner.rows now.db) →
      OneRowPerSlot packages ((scopeTo onlyArch parent ring inner).rows now.db) := by
    intro inner one
    unfold scopeTo
    split
    · have := slotted.index
      have distinct := slotted.distinct
      subst this
      exact one.oneArch distinct (slotted.live inv ring) _
    · exact one
  cases read with
  | nothing => exact .empty
  | own p => exact slotted.live inv ring
  | same _ => exact slotted.live inv ring
  | @live source parent asHead _ _ => exact scoped_ _ (slotted.live inv asHead)
  | @rows source parent _ flagged =>
      refine scoped_ _ ?_
      obtain ⟨r, member, sameId, flag⟩ := settled.flags _ flagged
      rw [show (Members.release source.id).rows now.db = now.db.releasePackages source.id from rfl,
        ← sameId, inv.rows r member flag]
      exact slotted.selections r member

theorem slotted_create {packages : List Package} {w : World} (index : w.db.packages = packages)
    {body : CreateRelease} (apart : AddsApart body w) :
    KeptByCreate (fun _ => Slotted packages) body := by
  intro floor reads now hold inv slotted next parent
  have ordered := inv.ordered
  have toNow := ((hold.toSeq.trans hold.toBase).trans hold.toLast).trans hold.toNow
  refine ⟨by simpa using slotted.index, slotted.distinct, ?_⟩
  intro r member
  rw [World.commit_selection_applyRelease ordered]
  simp only [World.commit_db, Db.applyRelease_releases, List.mem_append, List.mem_singleton] at member
  rcases member with old | rfl
  · rw [Function.update_of_ne (Nat.ne_of_lt (ordered.fresh r old))]
    exact slotted.selections r old
  simp only [CreateBatch.row, Function.update_self]
  have same := slotted.index
  have distinct := slotted.distinct
  have base := slotted.base inv (hold.toLast.trans hold.toNow) hold.base
  rw [← same] at distinct base ⊢
  refine OneRowPerSlot.target distinct base ?_
  -- The adds were read in an index with the same packages.
  have added : reads.added = body.addsOf w.db := by
    have read : reads.removeArch = body.removeArch.bind isRepoArch := by
      cases named : body.removeArch with
      | none => exact hold.noRemoveArch named
      | some text => exact hold.removeArch text named
    have samePackages : reads.atAdds.db.packages = w.db.packages :=
      toNow.packages.symm.trans (same.trans index.symm)
    rw [hold.added, read]
    simp only [CreateRelease.addsOf, Db.addedIds, Db.addRows, samePackages]
  intro p memP q memQ inP inQ
  rw [same, ← index] at memP memQ
  exact apart p memP q memQ (added ▸ inP) (added ▸ inQ)

/-- Requests one at a time over any index, none adding two rows of one slot: every ring's
selection has at most one row per source, name and architecture. -/
theorem slots_of_addsApart {packages : List Package} {bucket : String → Option Blob}
    (distinct : (packages.map (·.id)).Nodup) {w : World}
    (reached : Sequence handleCreateRelease AddsApart (World.fresh packages bucket) w) :
    ∀ ring, ∀ p ∈ w.db.packages, ∀ q ∈ w.db.packages, p.id ∈ w.db.ringPackages ring →
      q.id ∈ w.db.ringPackages ring → p.slot = q.slot → p.id = q.id := by
  have sound : Sound (fun _ => Slotted packages) w := by
    refine reached.induct _ ⟨_, Exact.fresh packages bucket, rfl, distinct, by simp [World.fresh]⟩ ?_
    intro body w apart sound
    obtain ⟨_, _, slotted⟩ := id sound
    exact sound_create (.of_recounted fun _ _ _ settled kept => kept.stable settled)
      (slotted_create slotted.index apart) sound
  obtain ⟨floor, inv, slotted⟩ := sound
  intro ring
  rw [slotted.index]
  exact slotted.live inv ring

/-- Two versions of one package, for one architecture. -/
def slotIndex : List Package :=
  [.sample 1 'a' "core" "bash", .sample 2 'b' "core" "bash" "1.1-1"]

/-- One version, then the other in its place. -/
def replacingRun : List CreateRelease :=
  [{ ring := "edge", add := [Package.sampleHash 'a'] },
    { ring := "edge", add := [Package.sampleHash 'b'] }]

theorem slots_of_replacingRun :
    ∃ w, Sequence handleCreateRelease AddsApart (World.fresh slotIndex fun _ => none) w ∧
      w.db.ringPackages .edge = {2} ∧
      ∀ ring, ∀ p ∈ w.db.packages, ∀ q ∈ w.db.packages, p.id ∈ w.db.ringPackages ring →
        q.id ∈ w.db.ringPackages ring → p.slot = q.slot → p.id = q.id :=
  have reached := Runs.start.steps replacingRun (by decide)
  ⟨_, reached, by decide, slots_of_addsApart (by decide) reached⟩

/-- Both versions in one request. -/
def bothAdded : CreateRelease :=
  { ring := "edge", add := [Package.sampleHash 'a', Package.sampleHash 'b'] }

/-- The request succeeds in the store it finds. -/
def Succeeds (body : CreateRelease) (w : World) : Prop :=
  ∃ created, ((handleCreateRelease body).run w).1 = .ok created

/-- The request succeeds and edge serves both versions. -/
theorem slots_two_adds :
    ¬ ∀ packages : List Package, (packages.map (·.id)).Nodup →
      (packages.map fun p => (p.sha256, p.repoArch)).Nodup → ∀ (bucket : String → Option Blob) (w : World),
      Sequence handleCreateRelease Succeeds (World.fresh packages bucket) w →
      ∀ ring, ∀ p ∈ w.db.packages, ∀ q ∈ w.db.packages, p.id ∈ w.db.ringPackages ring →
        q.id ∈ w.db.ringPackages ring → p.slot = q.slot → p.id = q.id := by
  intro law
  have succeeds : Succeeds bothAdded (World.fresh slotIndex fun _ => none) :=
    ⟨⟨⟨1, .edge, 1, none, none, none, true, some 2, some 2, some [⟨"core", .x86_64, 2, 2⟩]⟩, ⟨2, 2⟩, []⟩,
      by decide⟩
  have same := law slotIndex (by decide) (by decide) _ _ (.step bothAdded .start succeeds) .edge
    (.sample 1 'a' "core" "bash") (by decide) (.sample 2 'b' "core" "bash" "1.1-1")
    (by decide) (by decide) (by decide) (by decide)
  exact absurd same (by decide)

end OmarchyPool
