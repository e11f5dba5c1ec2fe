/-
# OmarchyPool.Lineage -- a release's deltas are against its parent

`ensureCheckpoint` and the delta diff rebuild a selection by applying the deltas of a
release to the selection of its parent.  The batch of `handleCreateRelease` writes the
deltas against the ring's live rows, and `parent_id` from a read it made before; the two
agree when no release was made in between.

`UNIQUE (ring, seq)` refuses a batch when another request made a release after this one
read its seq (`Db.Ordered.seq_of_createRelease`).  It says nothing of the reads before
that: the parent is read first, and a release made between the two reads is skipped by
the parent and not by the seq (`lineage_skips_release`).  In every run where the head is
still the parent when the seq is read, the law holds (`lineage_of_parentIsHead`).
-/
import OmarchyPool.Rooted

namespace OmarchyPool

open Lib

set_option autoImplicit false

/-- Where nothing drops deltas, every release has its own. -/
def Lineage : World → Prop := Rooted fun _ => 0

theorem Lineage.same {w : World} (lineage : Lineage w) {db : Db} (same : w.db.SameReleases db)
    (rows : db.ringPackages = w.db.ringPackages) (deltas : db.releaseDeltas = w.db.releaseDeltas) :
    Lineage (w.commit db) :=
  Rooted.same lineage same rows (fun _ _ _ => Nat.zero_le _) (fun _ => Nat.le_refl _)
    (fun _ => Nat.zero_le _) fun r _ _ => by rw [deltas]

/-! ## The contract of a request -/

/-- The ring's head is still the release the request read as its parent. -/
def ParentIsHead : Event → World → Prop
  | .nextSeq ring parent, w => w.db.ringHeads ring = parent
  | _, _ => True

instance (event : Event) (w : World) : Decidable (ParentIsHead event w) := by
  cases event <;> (unfold ParentIsHead; infer_instance)

def lineageContract : Contract World Event where
  inv := Lineage
  rely := Grown
  guar := Grown
  meets := ParentIsHead

theorem lineage_ensureCheckpoint (id : ReleaseId) (w : World) (lineage : Lineage w) :
    (ensureCheckpoint id).Spec lineageContract w fun _ w' => Grown w w' ∧ Lineage w' := by
  refine Program.Only.spec Grown (fun _ _ _ => Grown.trans) Grown.refl (fun _ _ h => h)
    (fun _ _ h => h) ?_ (ensureCheckpoint_only id) lineage
  rintro _ _ (rfl | ⟨release, ids, rfl⟩) now kept _
  · exact ⟨kept, Grown.refl now⟩
  · have same := Db.sameReleases_materialise now.db release ids
    exact ⟨kept.same same rfl rfl, Grown.same same⟩

theorem lineage_serves :
    Serves lineageContract Grown Grown (fun _ _ => True) fun _ _ _ => True where
  refl := Grown.refl
  trans := fun _ _ _ => Grown.trans
  relied := fun _ _ h => h
  still := Grown.refl
  laterRefl := Grown.refl
  laterTrans := fun _ _ _ => Grown.trans
  laterRelied := fun _ _ h => h
  ensure := fun id w lineage => (lineage_ensureCheckpoint id w lineage).mono fun _ _ ended =>
    ⟨ended.1, ended.1, ended.2, fun _ => trivial⟩
  headLists := fun _ _ _ _ _ => trivial
  rowsList := fun _ _ _ _ => trivial
  listsKept := fun _ _ _ _ _ _ => trivial
  counts := fun id _ _ b _ _ _ _ lineage stores =>
    have same := Db.sameReleases_updateRelease b.db id _ fun r => (stores.keeps r).1
    ⟨lineage.same same rfl rfl, Grown.same same, Grown.same same⟩

theorem lineage_batch (body : CreateRelease) (reads : Reads) (now : World)
    (hold : reads.Hold lineageContract Grown (fun _ _ => True) body now) (lineage : Lineage now)
    {db' : Db} (done : Db.createRelease (reads.batch body) now.db = .ok db') :
    Lineage (now.commit db') ∧ Grown now (now.commit db') := by
  obtain ⟨next, parent, rfl⟩ := hold.next (Rooted.ordered hold.invSeq) (Rooted.ordered lineage)
    ((hold.toBase.trans hold.toLast).trans hold.toNow) hold.seqMet done
  exact ⟨Rooted.create lineage next parent, Grown.create now _⟩

/-- Any number of requests at once, on any rings: where each reads its seq with its parent
still the head, every release is its parent's selection without its removes, and its adds. -/
theorem lineage_of_parentIsHead {packages : List Package} {bucket : String → Option Blob}
    {config : Config World CreateRelease Event Failure Created}
    (reached : Reachable handleCreateRelease ParentIsHead (World.fresh packages bucket) config) :
    ∀ r ∈ config.store.db.releases, ∀ p, r.parentId = some p →
      config.store.selection r.id =
        (config.store.selection p \ (config.store.db.releaseDeltas r.id).remove) ∪
          (config.store.db.releaseDeltas r.id).add := by
  have kept := reachable_spec lineageContract (fun _ _ _ => True) Grown.refl
    (fun _ _ _ => Grown.trans) (fun _ _ h => h) (Rooted.fresh (fun _ => Nat.zero_le _) packages bucket)
    (fun body w lineage =>
      (create_spec lineage_serves body (fun reads now hold _ inv _ db' done =>
        lineage_batch body reads now hold inv done) lineage).mono fun _ _ _ => trivial) reached
  intro r member p isParent
  obtain ⟨q, -, -, -, below⟩ := Rooted.parent kept.1 member isParent
  exact Rooted.deltas kept.1 r member p isParent (Nat.lt_of_le_of_lt (Nat.zero_le _) below)

/-! ## Two runs -/

/-- An index of three packages, and the request that adds one of them to edge. -/
def lineageStart : World :=
  .fresh [.sample 1 'a' "core" "bash", .sample 2 'b' "core" "curl", .sample 3 'c' "core" "nano"]
    fun _ => none

def lineageAdd (digit : Char) : CreateRelease :=
  { ring := "edge", add := [Package.sampleHash digit] }

/-- Two requests one after the other, each up to and with its batch. -/
def orderlyRun : List (Move CreateRelease) :=
  .spawn (lineageAdd 'a') :: List.replicate 5 (.run 0) ++
    .spawn (lineageAdd 'b') :: List.replicate 5 (.run 1)

theorem lineage_of_orderlyRun :
    ∃ config : Config World CreateRelease Event Failure Created,
      Reachable handleCreateRelease ParentIsHead lineageStart config ∧
      config.store.db.releases.map (·.parentId) = [none, some 1] ∧
      ∀ r ∈ config.store.db.releases, ∀ p, r.parentId = some p →
        config.store.selection r.id =
          (config.store.selection p \ (config.store.db.releaseDeltas r.id).remove) ∪
            (config.store.db.releaseDeltas r.id).add :=
  have reached := reachable_moves handleCreateRelease ParentIsHead lineageStart orderlyRun
    (by decide)
  ⟨_, reached, by decide, lineage_of_parentIsHead reached⟩

/-- The second request reads its parent, release 1; the third makes release 2; the second
then reads its seq, which is 3, and its batch goes through. -/
def skippingRun : List (Move CreateRelease) :=
  .spawn (lineageAdd 'a') :: List.replicate 5 (.run 0) ++
    [.spawn (lineageAdd 'b'), .run 1] ++
    .spawn (lineageAdd 'c') :: List.replicate 5 (.run 2) ++ List.replicate 4 (.run 1)

/-- Release 3 names release 1 as its parent and has no delta for what release 2 added. -/
theorem lineage_skips_release :
    ¬ ∀ (packages : List Package) (bucket : String → Option Blob)
      (config : Config World CreateRelease Event Failure Created),
      Reachable handleCreateRelease Unrestricted (World.fresh packages bucket) config →
      ∀ r ∈ config.store.db.releases, ∀ p, r.parentId = some p →
        config.store.selection r.id =
          (config.store.selection p \ (config.store.db.releaseDeltas r.id).remove) ∪
            (config.store.db.releaseDeltas r.id).add := by
  intro law
  have reached := reachable_moves handleCreateRelease Unrestricted lineageStart skippingRun
    (by decide)
  have equal := law _ _ _ reached
    ⟨3, .edge, 3, some 1, none, none, false, none, none, none⟩ (by decide) 1 rfl
  exact absurd equal (by decide)

end OmarchyPool
