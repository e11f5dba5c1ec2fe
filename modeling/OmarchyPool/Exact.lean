/-
# OmarchyPool.Exact -- every reconstruction is the release's own selection

The pool's operations one at a time: releases made, releases rebuilt, garbage collected.
Four tables hold the selections of a ring: its live rows, the deltas of each release, the
rows of its checkpoints, and the flag that says which releases are checkpoints.  `Exact`
says how they agree in every store such operations reach.  GC drops deltas: `floor` is, for
each ring, the seq up to which it may have dropped them, and no checkpoint is below it, so
a walk down to a checkpoint never crosses a dropped delta.
-/
import OmarchyPool.Retention
import OmarchyPool.Rooted

namespace OmarchyPool

open Lib

set_option autoImplicit false

/-- The operations of a pool. -/
inductive Op where
  | create (body : CreateRelease)
  | ensure (releaseId : ReleaseId)
  | members (releaseId : ReleaseId)
  | gc (params : GcParams)

def Op.serve : Op → Handler Unit
  | .create body => do let _ ← handleCreateRelease body
  | .ensure releaseId => ensureCheckpoint releaseId
  | .members releaseId => do let _ ← releaseMembers releaseId
  | .gc params => do let _ ← handleGc params

/-! ## The invariant -/

structure Exact (floor : Ring → Nat) (w : World) : Prop extends Rooted floor w where
  idle : ∀ ring, w.db.ringHeads ring = none → w.db.ringPackages ring = ∅
  rows : ∀ r ∈ w.db.releases, r.checkpoint = true → w.db.releasePackages r.id = w.selection r.id
  bare : ∀ id, ¬ Flagged w id → w.db.releasePackages id = ∅

namespace Exact

theorem fresh (packages : List Package) (bucket : String → Option Blob) :
    Exact (fun _ => 1) (World.fresh packages bucket) where
  toRooted := Rooted.fresh (fun _ => Nat.le_refl _) packages bucket
  idle := fun _ _ => rfl
  rows := by simp [World.fresh]
  bare := fun _ _ => rfl

variable {floor : Ring → Nat} {w : World} (exact_ : Exact floor w)
include exact_

/-- A write that leaves the releases and the live rows: what is asked of the flags it sets,
the rows it leaves and the deltas it keeps. -/
theorem same {floor' : Ring → Nat} {db : Db} (same : w.db.SameReleases db)
    (live : db.ringPackages = w.db.ringPackages)
    (rows : ∀ r ∈ db.releases, r.checkpoint = true →
      db.releasePackages r.id = w.selection r.id ∧ floor' r.ring ≤ r.seq)
    (bare : ∀ id, (∀ r ∈ db.releases, r.id = id → r.checkpoint = false) →
      db.releasePackages id = ∅)
    (raised : ∀ ring, floor ring ≤ floor' ring)
    (low : ∀ ring, floor' ring ≤ max 1 (w.db.ofRing ring).length)
    (deltas : ∀ r ∈ w.db.releases, floor' r.ring < r.seq →
      db.releaseDeltas r.id = w.db.releaseDeltas r.id) :
    Exact floor' (w.commit db) where
  toRooted := exact_.toRooted.same same live (fun r member flag => (rows r member flag).2) raised low
    deltas
  idle := by
    intro ring none
    rw [World.commit_db, same.heads] at none
    rw [World.commit_db, live]
    exact exact_.idle ring none
  rows := by
    intro r member flag
    rw [World.commit_selection_of_same same]
    exact (rows r member flag).1
  bare := by
    intro id unflagged
    refine bare id fun r member same => ?_
    cases flag : r.checkpoint with
    | false => rfl
    | true => exact absurd ⟨r, member, same, flag⟩ unflagged

/-- A release made a checkpoint with its own selection. -/
theorem materialise {r : Release} (member : r ∈ w.db.releases) (above : floor r.ring ≤ r.seq) :
    Exact floor (w.commit (w.db.materialise r.id (w.selection r.id))) := by
  have rowsOf : ∀ id, (w.db.materialise r.id (w.selection r.id)).releasePackages id =
      if id = r.id then w.selection r.id else w.db.releasePackages id := by
    intro id
    by_cases here : id = r.id
    · subst here
      simp only [Db.materialise, Function.update_self, if_true]
      -- What was there before is the selection already, or nothing.
      cases flag : r.checkpoint with
      | true => rw [exact_.rows r member flag, Finset.union_self]
      | false =>
          rw [exact_.bare r.id, Finset.empty_union]
          rintro ⟨r', member', same, flag'⟩
          rw [exact_.ordered.eq_of_id member' member same, flag] at flag'
          cases flag'
    · simp only [Db.materialise, Function.update_of_ne here, if_neg here]
  refine exact_.same (Db.sameReleases_materialise _ _ _) rfl ?_ ?_ (fun _ => Nat.le_refl _)
    exact_.low (fun _ _ _ => rfl)
  · intro q qMember flag
    simp only [Db.materialise, Db.updateRelease, List.mem_map] at qMember
    obtain ⟨q₀, q₀Member, rfl⟩ := qMember
    rw [rowsOf]
    by_cases here : q₀.id = r.id
    · obtain rfl := exact_.ordered.eq_of_id q₀Member member here
      simpa using above
    · simp only [if_neg here] at flag ⊢
      exact ⟨exact_.rows q₀ q₀Member flag, exact_.above q₀ q₀Member flag⟩
  · intro id unflagged
    rw [rowsOf]
    by_cases here : id = r.id
    · subst here
      have := unflagged { r with checkpoint := true }
        (by
          simp only [Db.materialise, Db.updateRelease, List.mem_map]
          exact ⟨r, member, by simp⟩) rfl
      cases this
    · rw [if_neg here]
      refine exact_.bare id ?_
      rintro ⟨q, qMember, same, flag⟩
      have := unflagged q
        (by
          simp only [Db.materialise, Db.updateRelease, List.mem_map]
          exact ⟨q, qMember, by rw [same, if_neg here]⟩) same
      rw [flag] at this
      cases this

/-- A ring's next release, from its head. -/
theorem create {b : CreateBatch} (next : b.seq = (w.db.ofRing b.ring).length + 1)
    (parent : b.parent = w.db.ringHeads b.ring) :
    Exact floor (w.commit (w.db.applyRelease b)) := by
  have ordered := exact_.ordered
  have bareNext : w.db.releasePackages w.db.nextRelease = ∅ := by
    refine exact_.bare _ ?_
    rintro ⟨r, member, same, -⟩
    exact absurd same (Nat.ne_of_lt (ordered.fresh r member))
  have oldRows : ∀ id, id ≠ w.db.nextRelease →
      (w.db.applyRelease b).releasePackages id = w.db.releasePackages id := by
    intro id ne
    rw [Db.applyRelease_releasePackages]
    split
    · rw [Function.update_of_ne ne]
    · rfl
  have older : ∀ r ∈ w.db.releases, r.id ≠ w.db.nextRelease :=
    fun r member => Nat.ne_of_lt (ordered.fresh r member)
  refine ⟨exact_.toRooted.create next parent, ?_, ?_, ?_⟩
  · intro ring none
    simp only [World.commit_db, Db.applyRelease_ringHeads, Db.applyRelease_ringPackages] at none ⊢
    by_cases here : ring = b.ring
    · subst here
      simp at none
    · rw [Function.update_of_ne here] at none ⊢
      exact exact_.idle ring none
  · intro r member flag
    rw [World.commit_selection_applyRelease ordered]
    simp only [World.commit_db, Db.applyRelease_releases, List.mem_append,
      List.mem_singleton] at member ⊢
    rcases member with old | rfl
    · rw [oldRows _ (older r old), Function.update_of_ne (older r old)]
      exact exact_.rows r old flag
    · have flagged : b.checkpoint = true := flag
      simp only [CreateBatch.row, Db.applyRelease_releasePackages, flagged, if_true,
        Function.update_self, bareNext, Finset.empty_union]
  · intro id unflagged
    have old : ¬ Flagged w id := by
      rintro ⟨r, member, rest⟩
      exact unflagged ⟨r, by simp [member], rest⟩
    by_cases here : id = w.db.nextRelease
    · subst here
      have plain : b.checkpoint = false := by
        cases flag : b.checkpoint with
        | false => rfl
        | true => exact absurd ⟨b.row w.db.nextRelease, by simp, rfl, flag⟩ unflagged
      rw [World.commit_db, Db.applyRelease_releasePackages, plain]
      exact exact_.bare _ old
    · rw [World.commit_db, oldRows id here]
      exact exact_.bare id old

/-- What GC leaves of the checkpoints and the deltas. -/
theorem prune {keep : Nat} {kept : Retained} {low bound : Ring → Nat}
    (retains : Retains w.db keep kept rings.reverse low bound) {db : Db}
    (releases : db.releases = (w.db.pruneFlags kept.keptCheckpoints).releases)
    (next : db.nextRelease = w.db.nextRelease) (heads : db.ringHeads = w.db.ringHeads)
    (live : db.ringPackages = w.db.ringPackages)
    (rows : db.releasePackages = (w.db.pruneRows kept.keptCheckpoints).releasePackages)
    (deltas : ∀ r ∈ w.db.releases, bound r.ring < r.seq →
      db.releaseDeltas r.id = w.db.releaseDeltas r.id) :
    Exact (fun ring => max (floor ring) (bound ring)) (w.commit db) := by
  have every : ∀ ring, ring ∈ rings.reverse := fun ring => List.mem_reverse.mpr (mem_rings ring)
  have flags := Db.sameReleases_pruneFlags w.db kept.keptCheckpoints
  have same : w.db.SameReleases db := ⟨by rw [releases]; exact flags.rows, next, heads⟩
  -- A checkpoint after the prune is a kept one, and it was one before.
  have flagged : ∀ r ∈ db.releases, r.checkpoint = true →
      r ∈ w.db.releases ∧ r.id ∈ kept.keptCheckpoints := by
    intro r member flag
    rw [releases] at member
    simp only [Db.pruneFlags, List.mem_map] at member
    obtain ⟨r₀, member₀, rfl⟩ := member
    by_cases isKept : r₀.id ∈ kept.keptCheckpoints
    · rw [if_pos isKept] at flag ⊢
      exact ⟨member₀, isKept⟩
    · rw [if_neg isKept] at flag
      cases flag
  refine exact_.same same live ?_ ?_ (fun _ => Nat.le_max_left _ _) ?_ ?_
  · intro r member flag
    obtain ⟨inTable, isKept⟩ := flagged r member flag
    have above := (retains.mem_checkpoints r.ring (every _) r
      (Db.mem_ofRing.mpr ⟨inTable, rfl⟩)).mp isKept
    refine ⟨?_, Nat.max_le.mpr ⟨exact_.above r inTable flag, above.2⟩⟩
    rw [rows]
    simp only [Db.pruneRows, if_pos isKept]
    exact exact_.rows r inTable flag
  · intro id unflagged
    rw [rows]
    simp only [Db.pruneRows]
    by_cases isKept : id ∈ kept.keptCheckpoints
    · obtain ⟨r, member, rfl, -⟩ := retains.checkpointOnly id isKept
      have flag := ((retains.mem_checkpoints r.ring (every _) r
        (Db.mem_ofRing.mpr ⟨member, rfl⟩)).mp isKept).1
      have inPruned : r ∈ db.releases := by
        rw [releases]
        simp only [Db.pruneFlags, List.mem_map]
        exact ⟨r, member, by rw [if_pos isKept]⟩
      rw [unflagged r inPruned rfl] at flag
      cases flag
    · rw [if_neg isKept]
  · intro ring
    have := exact_.low ring
    rcases Nat.eq_zero_or_pos (bound ring) with zero | positive
    · omega
    · obtain ⟨r, member, -, seq⟩ := retains.floor_row ring (every ring) positive
      have := exact_.ordered.seq_le member
      omega
  · intro r member above
    exact deltas r member (Nat.lt_of_le_of_lt (Nat.le_max_right _ _) above)

end Exact

/-! ## One operation at a time -/

/-- Nothing but checkpoints and the counts on a release were written. -/
structure Recounted (w w' : World) : Prop where
  releases : w.db.SameReleases w'.db
  flags : ∀ id, Flagged w id → Flagged w' id
  packages : w'.db.packages = w.db.packages
  ringPackages : w'.db.ringPackages = w.db.ringPackages
  releaseDeltas : w'.db.releaseDeltas = w.db.releaseDeltas
  artifacts : w'.db.artifacts = w.db.artifacts
  bucket : w'.db.bucket = w.db.bucket
  selection : w'.selection = w.selection

theorem Recounted.refl (w : World) : Recounted w w :=
  ⟨.refl _, fun _ h => h, rfl, rfl, rfl, rfl, rfl, rfl⟩

theorem Recounted.trans {a b d : World} (first : Recounted a b) (second : Recounted b d) :
    Recounted a d where
  releases := first.releases.trans second.releases
  flags := fun id flag => second.flags id (first.flags id flag)
  packages := second.packages.trans first.packages
  ringPackages := second.ringPackages.trans first.ringPackages
  releaseDeltas := second.releaseDeltas.trans first.releaseDeltas
  artifacts := second.artifacts.trans first.artifacts
  bucket := second.bucket.trans first.bucket
  selection := second.selection.trans first.selection

theorem Recounted.updateRelease (w : World) (id : ReleaseId) (change : Release → Release)
    (keeps : ∀ r, (change r).fixed = r.fixed ∧ (r.checkpoint = true → (change r).checkpoint = true)) :
    Recounted w (w.commit (w.db.updateRelease id change)) where
  releases := Db.sameReleases_updateRelease _ _ _ fun r => (keeps r).1
  flags := by
    rintro q ⟨r, member, same, flag⟩
    refine ⟨if r.id = id then change r else r, ?_, ?_, ?_⟩
    · simp only [World.commit_db, Db.updateRelease, List.mem_map]
      exact ⟨r, member, rfl⟩
    · split
      · exact (Release.id_eq (keeps r).1).trans same
      · exact same
    · split
      · exact (keeps r).2 flag
      · exact flag
  packages := rfl
  ringPackages := rfl
  releaseDeltas := rfl
  artifacts := rfl
  bucket := rfl
  selection := World.commit_selection_of_same (Db.sameReleases_updateRelease _ _ _ fun r => (keeps r).1)

/-- Nothing but checkpoints was written. -/
structure Settled (w w' : World) : Prop extends Recounted w w' where
  counts : w'.db.releases.map (fun r => (r.id, r.packageCount, r.bytes, r.sources)) =
    w.db.releases.map fun r => (r.id, r.packageCount, r.bytes, r.sources)

theorem Settled.refl (w : World) : Settled w w := ⟨Recounted.refl w, rfl⟩

theorem Settled.trans {a b d : World} (first : Settled a b) (second : Settled b d) : Settled a d :=
  ⟨first.toRecounted.trans second.toRecounted, second.counts.trans first.counts⟩

theorem Settled.materialise (w : World) (id : ReleaseId) (ids : Finset PackageId) :
    Settled w (w.commit (w.db.materialise id ids)) := by
  have recounted := Recounted.updateRelease w id ({ · with checkpoint := true })
    fun _ => ⟨rfl, fun _ => rfl⟩
  refine ⟨⟨Db.sameReleases_materialise _ _ _, recounted.flags, rfl, rfl, rfl, rfl, rfl,
    World.commit_selection_of_same (Db.sameReleases_materialise _ _ _)⟩, ?_⟩
  simp only [World.commit_db, Db.materialise, Db.updateRelease, List.map_map]
  apply List.map_congr_left
  intro r _
  simp only [Function.comp_apply]
  split <;> rfl

/-- The contract of an operation that runs alone and keeps `inv`. -/
def onItsOwn (inv : World → Prop) : Contract World Event where
  inv := inv
  rely := Eq
  guar := fun _ _ => True
  meets := fun _ _ => True

/-- A store in which the tables agree, whatever GC has dropped, and `more` holds besides. -/
def Sound (more : (Ring → Nat) → World → Prop) (w : World) : Prop :=
  ∃ floor, Exact floor w ∧ more floor w

/-- What `checkPresent` lets through: every chunk of the ids is counted whole. -/
def Db.Counted (db : Db) (ids : Finset PackageId) : Prop :=
  ∀ chunk ∈ chunks chunkSize (ids.sort (· ≤ ·)), chunk.length ≤ db.countPackages chunk

/-- The members are those of a head, or of a checkpoint. -/
inductive Listed (w : World) (id : ReleaseId) : Members → Prop where
  | live {ring : Ring} : w.db.ringHeads ring = some id → Listed w id (.ring ring)
  | rows : Flagged w id → Listed w id (.release id)

theorem Exact.rows_of_listed {floor : Ring → Nat} {w : World} (inv : Exact floor w) {id : ReleaseId}
    {members : Members} (listed : Listed w id members) : members.rows w.db = w.selection id := by
  cases listed with
  | live head => exact inv.live _ id head
  | rows flagged =>
      obtain ⟨r, member, rfl, flag⟩ := flagged
      exact inv.rows r member flag

theorem Listed.later {w w' : World} {id : ReleaseId} {members : Members}
    (listed : Listed w id members) (later : Recounted w w') : Listed w' id members := by
  cases listed with
  | live head => exact .live (by rwa [later.releases.heads])
  | rows flagged => exact .rows (later.flags id flagged)

/-- `more` survives what a reconstruction writes and what is stored on a release. -/
structure Survives (more : (Ring → Nat) → World → Prop) : Prop where
  checkpoint : ∀ floor w (r : Release), Exact floor w → more floor w → r ∈ w.db.releases →
    w.db.Counted (w.selection r.id) →
    more floor (w.commit (w.db.materialise r.id (w.selection r.id)))
  counts : ∀ floor w id members change, Exact floor w → more floor w → Listed w id members →
    Stores (w.db.joined (w.selection id)) change →
    more floor (w.commit (w.db.updateRelease id change))

/-- It does when it is no business of theirs. -/
theorem Survives.of_recounted {more : (Ring → Nat) → World → Prop}
    (stable : ∀ floor w w', Recounted w w' → more floor w → more floor w') : Survives more where
  checkpoint := fun floor w _ _ rest _ _ =>
    stable floor _ _ (Settled.materialise w _ _).toRecounted rest
  counts := fun floor w id _ _ _ rest _ stores =>
    stable floor _ _ (Recounted.updateRelease w id _ fun r =>
      ⟨(stores.keeps r).1, fun flag => (stores.keeps r).2.trans flag⟩) rest

theorem Survives.and {more more' : (Ring → Nat) → World → Prop} (first : Survives more)
    (second : Survives more') : Survives fun floor w => more floor w ∧ more' floor w where
  checkpoint := fun floor w r inv rest member counted =>
    ⟨first.checkpoint floor w r inv rest.1 member counted, second.checkpoint floor w r inv rest.2 member counted⟩
  counts := fun floor w id members change inv rest listed stores =>
    ⟨first.counts floor w id members change inv rest.1 listed stores,
      second.counts floor w id members change inv rest.2 listed stores⟩

section Sequential

variable {more : (Ring → Nat) → World → Prop} (survives : Survives more)

include survives in
theorem sound_rebuilds : Rebuilds (onItsOwn (Sound more)) (fun base w => Flagged w base)
    fun ids w => ids.length ≤ w.db.countPackages ids where
  ordered := fun _ ⟨_, inv, _⟩ => inv.ordered
  parents := by
    rintro w ⟨floor, inv, -⟩ r member p parent
    exact inv.parent member parent
  still := fun _ => trivial
  found := fun _ _ flag => flag
  keeps := by
    rintro s _ rfl
    exact Keeps.refl s
  trusted := by
    rintro s _ base rfl flag
    exact flag
  counted := fun _ _ _ enough => enough
  sawKept := by
    rintro s _ ids rfl enough
    exact enough
  rows := by
    rintro w base ⟨floor, inv, -⟩ - ⟨r, member, rfl, flag⟩
    exact inv.rows r member flag
  deltas := by
    rintro w base r ⟨floor, inv, -⟩ - flag known isKnown sameRing below p parent
    exact inv.deltas_above flag known isKnown sameRing below parent
  write := by
    rintro w base r ⟨floor, inv, rest⟩ - flag known ⟨r', member, eq⟩ sameRing below counted
    have bottom := inv.above_known flag known
    rw [← Release.id_eq eq] at counted ⊢
    refine ⟨⟨floor, ?_, survives.checkpoint floor w r' inv rest member counted⟩, trivial⟩
    refine inv.materialise member ?_
    rw [sameRing] at bottom
    rw [Release.ring_eq eq, Release.seq_eq eq]
    omega

include survives in
/-- Alone, `ensureCheckpoint` either throws or leaves the release a checkpoint, and writes
nothing else. -/
theorem sound_ensureCheckpoint (id : ReleaseId) (w : World) (sound : Sound more w) :
    (ensureCheckpoint id).Spec (onItsOwn (Sound more)) w fun result w' =>
      Settled w w' ∧ Sound more w' ∧ (result = .ok () → Flagged w' id) := by
  have same : ∀ a b, (onItsOwn (Sound more)).rely a b → Settled a b := by
    rintro a _ rfl
    exact Settled.refl a
  unfold ensureCheckpoint
  refine Program.Spec.bind (Program.spec_query (fun _ => trivial) ?_)
  rintro _ rfl _ -
  dsimp only
  cases read : w.db.release? id with
  | none => exact ⟨Settled.refl w, sound, by simp⟩
  | some start =>
      have ⟨floor, inv, rest⟩ := sound
      obtain ⟨member, rfl⟩ := inv.ordered.release?_eq_some.mp read
      dsimp only
      split
      · rename_i flag
        exact ⟨Settled.refl w, sound, fun _ => ⟨start, member, rfl, flag⟩⟩
      rename_i unflagged
      refine Program.Spec.bind (Program.spec_query (fun _ => trivial) ?_)
      rintro _ rfl _ -
      dsimp only
      cases head : w.db.headRing? start.id with
      | some ring =>
          -- The head: its selection is what the ring serves.
          have isHead : w.db.ringHeads ring = some start.id := by
            simpa using List.find?_some head
          refine Program.Spec.bind (Program.spec_query (fun _ => trivial) ?_)
          rintro _ rfl _ -
          refine Program.Spec.bind ((checkPresent_spec (fun _ => trivial) (fun w' => w = w') ?_
            (sound_rebuilds survives).counted (sound_rebuilds survives).sawKept start.id _ sound
            rfl).mono ?_)
          · rintro a _ rfl held
            exact held
          rintro (error | ⟨⟩) _ ⟨_, rfl, passed⟩
          · exact ⟨Settled.refl w, sound, by simp⟩
          refine Program.spec_exec ?_
          rintro _ rfl _ -
          have settled := Settled.materialise w start.id (w.db.ringPackages ring)
          have above : floor start.ring ≤ start.seq := by
            obtain ⟨r, inRing, sameId, seq⟩ := inv.ordered.head_row isHead
            have eq := inv.ordered.eq_of_id (Db.mem_ofRing.mp inRing).1 member sameId
            have low := inv.low start.ring
            have bounds := inv.ordered.seq_le inRing
            rw [← (Db.mem_ofRing.mp inRing).2, eq] at seq bounds
            omega
          have kept : Sound more (w.commit (w.db.materialise start.id (w.db.ringPackages ring))) := by
            have counted : w.db.Counted (w.db.ringPackages ring) := passed rfl
            rw [inv.live ring start.id isHead] at counted ⊢
            exact ⟨floor, inv.materialise member above,
              survives.checkpoint floor w start inv rest member counted⟩
          exact ⟨kept, trivial, settled, kept, fun _ => flagged_materialise (Known.of_mem member) _⟩
      | none =>
          exact rebuild_spec (sound_rebuilds survives) Settled.refl (fun _ _ _ => Settled.trans) same
            Settled.materialise start sound (Known.of_mem member) (by simpa using unflagged)

/-- The counts a release keeps on its row touch no table of the invariant. -/
theorem Exact.counts {floor : Ring → Nat} {w : World} (inv : Exact floor w) (id : ReleaseId)
    {change : Release → Release}
    (keeps : ∀ r, (change r).fixed = r.fixed ∧ (change r).checkpoint = r.checkpoint) :
    Exact floor (w.commit (w.db.updateRelease id change)) := by
  refine inv.same (Db.sameReleases_updateRelease _ _ _ fun r => (keeps r).1) rfl ?_ ?_
    (fun _ => Nat.le_refl _) inv.low (fun _ _ _ => rfl)
  · intro r member flag
    simp only [Db.updateRelease, List.mem_map] at member
    obtain ⟨r₀, member₀, rfl⟩ := member
    split at flag
    · have old := (keeps r₀).2.symm.trans flag
      rw [if_pos ‹_›, Release.id_eq (keeps r₀).1, Release.ring_eq (keeps r₀).1,
        Release.seq_eq (keeps r₀).1]
      exact ⟨inv.rows r₀ member₀ old, inv.above r₀ member₀ old⟩
    · rw [if_neg ‹_›]
      exact ⟨inv.rows r₀ member₀ flag, inv.above r₀ member₀ flag⟩
  · intro q unflagged
    refine inv.bare q ?_
    rintro ⟨r, member, same, flag⟩
    have := unflagged (if r.id = id then change r else r)
      (by
        simp only [Db.updateRelease, List.mem_map]
        exact ⟨r, member, rfl⟩)
    split at this
    · rw [(keeps r).2, flag] at this
      cases this ((Release.id_eq (keeps r).1).trans same)
    · rw [flag] at this
      cases this same

include survives in
theorem sound_serves : Serves (onItsOwn (Sound more)) Settled Recounted (fun id w => Flagged w id)
    fun id members w => Listed w id members where
  refl := Settled.refl
  trans := fun _ _ _ => Settled.trans
  relied := by
    rintro a _ rfl
    exact Settled.refl a
  still := fun _ => trivial
  laterRefl := Recounted.refl
  laterTrans := fun _ _ _ => Recounted.trans
  laterRelied := by
    rintro a _ rfl
    exact Recounted.refl a
  ensure := fun id w sound => (sound_ensureCheckpoint survives id w sound).mono fun _ _ ended =>
    ⟨ended.1, ended.1.toRecounted, ended.2.1, ended.2.2⟩
  headLists := fun id ring w _ head => .live (by simpa using List.find?_some head)
  rowsList := fun _ _ _ flagged => .rows flagged
  listsKept := by
    rintro id members a _ rfl listed
    exact listed
  counts := by
    rintro id members w _ change - listed rfl ⟨floor, inv, rest⟩ stores
    rw [inv.rows_of_listed listed] at stores
    exact ⟨⟨floor, inv.counts id stores.keeps,
        survives.counts floor w id members change inv rest listed stores⟩,
      trivial, Recounted.updateRelease w id change fun r =>
        ⟨(stores.keeps r).1, fun flag => (stores.keeps r).2.trans flag⟩⟩

/-- Alone, the batch of a request is the ring's next release, made from its head. -/
theorem batch_alone {body : CreateRelease} {reads : Reads} {now : World}
    (hold : reads.Hold (onItsOwn (Sound more)) Settled (fun id w => Flagged w id) body now)
    {floor : Ring → Nat} (inv : Exact floor now) {db' : Db}
    (done : Db.createRelease (reads.batch body) now.db = .ok db') :
    (reads.batch body).seq = (now.db.ofRing reads.ring).length + 1 ∧
      (reads.batch body).parent = now.db.ringHeads reads.ring ∧
      db' = now.db.applyRelease (reads.batch body) := by
  obtain ⟨_, before, -⟩ := hold.invSeq
  obtain ⟨_, atParent, -⟩ := hold.invParent
  have toNow := (hold.toBase.trans hold.toLast).trans hold.toNow
  -- Nothing was made since the head was read.
  have same := (hold.toAdds.trans hold.toSeq).releases
  refine hold.next before.ordered inv.ordered (fun ring => by rw [toNow.releases.ofRing_id]) ?_ done
  rw [← hold.parent, atParent.ordered.ringHead_eq, same.heads, atParent.ordered.heads]

/-- What `more` has to survive for a request to keep it: its batch. -/
def KeptByCreate (more : (Ring → Nat) → World → Prop) (body : CreateRelease) : Prop :=
  ∀ (floor : Ring → Nat) (reads : Reads) (now : World),
    reads.Hold (onItsOwn (Sound more)) Settled (fun id w => Flagged w id) body now →
    Exact floor now → more floor now →
    (reads.batch body).seq = (now.db.ofRing reads.ring).length + 1 →
    (reads.batch body).parent = now.db.ringHeads reads.ring →
    more floor (now.commit (now.db.applyRelease (reads.batch body)))

theorem Sound.mono {more more' : (Ring → Nat) → World → Prop}
    (weaker : ∀ floor w, more floor w → more' floor w) {w : World} (sound : Sound more w) : Sound more' w := by
  obtain ⟨floor, inv, rest⟩ := sound
  exact ⟨floor, inv, weaker floor w rest⟩

theorem Reads.Hold.mono {more more' : (Ring → Nat) → World → Prop}
    (weaker : ∀ floor w, more floor w → more' floor w) {body : CreateRelease} {reads : Reads} {now : World}
    (hold : reads.Hold (onItsOwn (Sound more)) Settled (fun id w => Flagged w id) body now) :
    reads.Hold (onItsOwn (Sound more')) Settled (fun id w => Flagged w id) body now :=
  { hold with
    seqMet := trivial
    invSource := hold.invSource.mono weaker
    invParent := hold.invParent.mono weaker
    invAdds := hold.invAdds.mono weaker
    invSeq := hold.invSeq.mono weaker
    invBase := hold.invBase.mono weaker
    invLast := hold.invLast.mono weaker }

theorem KeptByCreate.and {more more' : (Ring → Nat) → World → Prop} {body : CreateRelease}
    (first : KeptByCreate more body) (second : KeptByCreate more' body) :
    KeptByCreate (fun floor w => more floor w ∧ more' floor w) body := by
  intro floor reads now hold inv ⟨rest, rest'⟩ next parent
  exact ⟨first floor reads now (hold.mono fun _ _ => And.left) inv rest next parent,
    second floor reads now (hold.mono fun _ _ => And.right) inv rest' next parent⟩

include survives in
/-- The batch may count on what held when the request came in: until then it wrote checkpoints. -/
theorem sound_create_from {body : CreateRelease} {w : World}
    (kept : ∀ floor (reads : Reads) now,
      reads.Hold (onItsOwn (Sound more)) Settled (fun id w => Flagged w id) body now → Settled w now →
      Exact floor now → more floor now → (reads.batch body).seq = (now.db.ofRing reads.ring).length + 1 →
      (reads.batch body).parent = now.db.ringHeads reads.ring →
      more floor (now.commit (now.db.applyRelease (reads.batch body))))
    (sound : Sound more w) : Sound more ((handleCreateRelease body).run w).2 := by
  have spec := create_spec (sound_serves survives) body ?_ sound
  · exact (Program.run_spec (c := onItsOwn (Sound more)) (fun _ => rfl) (fun _ _ => trivial) sound
      spec).1
  · rintro reads now hold settled ⟨floor, inv, rest⟩ - db' done
    obtain ⟨next, parent, rfl⟩ := batch_alone hold inv done
    exact ⟨⟨floor, inv.create next parent, kept floor reads now hold settled inv rest next parent⟩,
      trivial⟩

include survives in
theorem sound_create {body : CreateRelease} (kept : KeptByCreate more body) {w : World}
    (sound : Sound more w) : Sound more ((handleCreateRelease body).run w).2 :=
  sound_create_from survives (fun floor reads now hold _ => kept floor reads now hold) sound

include survives in
theorem sound_ensure (id : ReleaseId) {w : World} (sound : Sound more w) :
    Sound more ((ensureCheckpoint id).run w).2 :=
  (Program.run_spec (c := onItsOwn (Sound more)) (fun _ => rfl) (fun _ _ => trivial) sound
    (sound_ensureCheckpoint survives id w sound)).1

include survives in
/-- Alone, `releaseMembers` gives a list of the release, and writes nothing but checkpoints. -/
theorem sound_releaseMembers (id : ReleaseId) {w : World} (sound : Sound more w) :
    (releaseMembers id).Spec (onItsOwn (Sound more)) w fun result w' =>
      Settled w w' ∧ Sound more w' ∧ ∀ members, result = .ok members → Listed w' id members := by
  unfold releaseMembers
  refine Program.Spec.bind (Program.spec_query (fun _ => trivial) ?_)
  rintro _ rfl _ -
  dsimp only
  cases head : w.db.headRing? id with
  | some ring =>
      refine ⟨Settled.refl w, sound, ?_⟩
      rintro _ ⟨⟩
      exact .live (by simpa using List.find?_some head)
  | none =>
      refine Program.Spec.bind ((sound_ensureCheckpoint survives id w sound).mono ?_)
      rintro (error | ⟨⟩) w' ⟨settled, sound', made⟩
      · exact ⟨settled, sound', by simp⟩
      refine ⟨settled, sound', ?_⟩
      rintro _ ⟨⟩
      exact .rows (made rfl)

include survives in
/-- Alone, the members of a release are its selection. -/
theorem sound_members (id : ReleaseId) {w : World} (sound : Sound more w) :
    Sound more ((releaseMembers id).run w).2 ∧
      ∀ members, ((releaseMembers id).run w).1 = .ok members →
        members.rows ((releaseMembers id).run w).2.db = w.selection id := by
  obtain ⟨-, settled, ⟨floor, inv, rest⟩, listed⟩ := Program.run_spec (c := onItsOwn (Sound more))
    (fun _ => rfl) (fun _ _ => trivial) sound (sound_releaseMembers survives id sound)
  refine ⟨⟨floor, inv, rest⟩, fun members ok => ?_⟩
  rw [inv.rows_of_listed (listed members ok), settled.selection]

end Sequential

/-! ## Garbage collection -/

/-- What GC leaves before it comes to the packages. -/
structure Pruned (kept : Retained) (w w' : World) : Prop where
  releases : w'.db.releases = (w.db.pruneFlags kept.keptCheckpoints).releases
  rows : w'.db.releasePackages = (w.db.pruneRows kept.keptCheckpoints).releasePackages
  deltas : ∀ id, (∀ entry ∈ kept.checkpointSeq, ∀ r ∈ w.db.ofRing entry.1,
    r.id = id → entry.2 < r.seq) → w'.db.releaseDeltas id = w.db.releaseDeltas id
  rest : w'.db = { w.db with
    releases := w'.db.releases
    releasePackages := w'.db.releasePackages
    releaseDeltas := w'.db.releaseDeltas }
  selection : w'.selection = w.selection

/-- The rows of packages and the objects GC took. -/
structure Swept (victims : List Package) (w w' : World) : Prop where
  rest : w'.db = { w.db with packages := w'.db.packages, bucket := w'.db.bucket }
  selection : w'.selection = w.selection
  fewer : w'.db.packages.Sublist w.db.packages
  stays : ∀ p ∈ w.db.packages, (∀ v ∈ victims, v.id ≠ p.id) → p ∈ w'.db.packages

theorem pruneRingDeltas_spec (list : List (Ring × Nat)) (w : World) :
    (pruneRingDeltas list).Spec (.alone World Event) w fun result w' => result = .ok () ∧
      w'.selection = w.selection ∧ w'.db = { w.db with releaseDeltas := w'.db.releaseDeltas } ∧
      ∀ id, (∀ entry ∈ list, ∀ r ∈ w.db.ofRing entry.1, r.id = id → entry.2 < r.seq) →
        w'.db.releaseDeltas id = w.db.releaseDeltas id := by
  induction list generalizing w with
  | nil => exact ⟨rfl, rfl, rfl, fun _ _ => rfl⟩
  | cons entry rest ih =>
      obtain ⟨ring, seq⟩ := entry
      refine Program.Spec.bind (Program.alone_exec ?_)
      refine (ih _).mono ?_
      rintro result w' ⟨rfl, selection, db, deltas⟩
      have same : w.db.SameReleases (w.db.pruneDeltas ring seq) := ⟨rfl, rfl, rfl⟩
      refine ⟨rfl, selection.trans (World.commit_selection_of_same same), ?_, ?_⟩
      · rw [db]
        rfl
      · intro id spared
        rw [deltas id fun entry inRest => spared entry (List.mem_cons_of_mem _ inRest)]
        simp only [World.commit_db, Db.pruneDeltas]
        rw [if_neg]
        simp only [List.any_eq_true, Bool.and_eq_true, beq_iff_eq, decide_eq_true_eq, not_exists,
          not_and]
        intro r member sameId
        have := spared (ring, seq) List.mem_cons_self r member sameId
        simp only at this
        omega

theorem Swept.refl (w : World) : Swept [] w w := ⟨rfl, rfl, .refl _, fun _ member _ => member⟩

theorem Swept.trans {victims rest : List Package} {a b d : World} (first : Swept victims a b)
    (second : Swept rest b d) : Swept (victims ++ rest) a d where
  rest := by rw [second.rest, first.rest]
  selection := second.selection.trans first.selection
  fewer := second.fewer.trans first.fewer
  stays := fun p member spared =>
    second.stays p (first.stays p member fun v inFirst => spared v (List.mem_append_left _ inFirst))
      fun v inSecond => spared v (List.mem_append_right _ inSecond)

theorem Swept.deleteObject (w : World) (victim : Package) :
    Swept [] w (w.commit (w.db.deleteObject victim)) where
  rest := rfl
  selection := World.commit_selection_of_same ⟨rfl, rfl, rfl⟩
  fewer := .refl _
  stays := fun _ member _ => member

theorem Swept.deleteRow (w : World) (victim : Package) :
    Swept [victim] w (w.commit (w.db.deleteRow victim)) := by
  unfold Db.deleteRow
  split
  · exact ⟨rfl, World.commit_selection_of_same ⟨rfl, rfl, rfl⟩, .refl _, fun _ member _ => member⟩
  · refine ⟨rfl, World.commit_selection_of_same ⟨rfl, rfl, rfl⟩, List.filter_sublist, ?_⟩
    intro p member spared
    refine List.mem_filter.mpr ⟨member, ?_⟩
    simpa using fun same => spared victim (by simp) same.symm

theorem deleteVictims_swept (victims : List Package) (report : GcReport) (w : World) :
    (deleteVictims victims report).Spec (.alone World Event) w fun _ w' => Swept victims w w' := by
  induction victims generalizing report w with
  | nil => exact Swept.refl w
  | cons victim rest ih =>
      have more : ∀ {a b : World}, Swept [] a b ∨ Swept [victim] a b → ∀ report,
          (deleteVictims rest report).Spec (.alone World Event) b fun _ w' =>
            Swept (victim :: rest) a w' := by
        rintro a b (none | one) report
        · refine (ih report b).mono fun _ w' swept => ?_
          have both := none.trans swept
          exact ⟨both.rest, both.selection, both.fewer, fun p member spared =>
            both.stays p member fun v inRest => spared v (List.mem_cons_of_mem _ inRest)⟩
        · exact (ih report b).mono fun _ w' swept => one.trans swept
      unfold deleteVictims
      refine Program.Spec.bind (Program.alone_query ?_)
      dsimp only
      split
      · exact more (.inl (Swept.refl w)) _
      · have object : (deleteVictimObject victim).Spec (.alone World Event) w fun result w' =>
            (∃ kept, result = .ok kept) ∧ Swept [] w w' := by
          unfold deleteVictimObject
          refine Program.Spec.bind (Program.alone_query ?_)
          dsimp only
          split
          · exact ⟨⟨_, rfl⟩, Swept.refl w⟩
          split
          · exact ⟨⟨_, rfl⟩, Swept.refl w⟩
          · exact Program.Spec.bind (Program.alone_exec ⟨⟨_, rfl⟩, Swept.deleteObject w victim⟩)
        refine Program.Spec.bind (object.mono ?_)
        rintro result w₁ ⟨⟨kept, rfl⟩, swept₁⟩
        refine Program.Spec.bind (Program.alone_iff.mpr ?_)
        have swept₂ := swept₁.trans (Swept.deleteRow w₁ victim)
        dsimp only [D1.returning, Program.run]
        split
        · exact more (.inr swept₂) _
        · exact more (.inr swept₂) _

/-- GC alone: retention, the prune it gives, then the packages outside it. -/
theorem gc_run (params : GcParams) {w : World} (ordered : w.db.Ordered) :
    ∃ kept low bound pruned,
      Retains w.db (max 1 params.keep) kept rings.reverse low bound ∧ Pruned kept w pruned ∧
      ((handleGc params).run w).2 =
        ((deleteVictims (sliceTo (min params.limit 500) (w.db.unreferenced kept params.cutoff))
          ⟨0, 0, 0, 0⟩).run pruned).2 := by
  have spec : (handleGc params).Spec (.alone World Event) w fun _ w' => ∃ kept low bound pruned,
      Retains w.db (max 1 params.keep) kept rings.reverse low bound ∧ Pruned kept w pruned ∧
      w' = ((deleteVictims (sliceTo (min params.limit 500) (w.db.unreferenced kept params.cutoff))
          ⟨0, 0, 0, 0⟩).run pruned).2 := ?_
  · exact Program.alone_iff.mp spec
  unfold handleGc
  refine Program.Spec.bind ((retention_spec ordered (Nat.le_max_left 1 params.keep)).mono ?_)
  rintro result _ ⟨rfl, kept, low, bound, rfl, retains⟩
  refine Program.Spec.bind (Program.alone_query ?_)
  refine Program.Spec.bind (Program.alone_exec ?_)
  refine Program.Spec.bind (Program.alone_exec ?_)
  refine Program.Spec.bind ((pruneRingDeltas_spec _ _).mono ?_)
  rintro result pruned ⟨rfl, selection, db, deltas⟩
  refine Program.alone_iff.mpr ⟨kept, low, bound, pruned, retains, ?_, rfl⟩
  have rows : w.db.SameReleases (w.db.pruneRows kept.keptCheckpoints) := ⟨rfl, rfl, rfl⟩
  refine ⟨by rw [db]; rfl, by rw [db]; rfl, ?_, by rw [db]; rfl, ?_⟩
  · intro id spared
    refine deltas id ?_
    intro entry member r inRing sameId
    -- The flags are gone from some rows by now, the seqs are as they were.
    simp only [World.commit_db, Db.ofRing, Db.pruneFlags, Db.pruneRows, List.mem_filter,
      List.mem_map] at inRing
    obtain ⟨⟨r₀, member₀, eq⟩, sameRing⟩ := inRing
    have fixed : r₀.fixed = r.fixed := by
      rw [← eq]
      split <;> rfl
    have ring : r₀.ring = entry.1 := (Release.ring_eq fixed).trans (by simpa using sameRing)
    rw [← Release.seq_eq fixed]
    exact spared entry member r₀ (Db.mem_ofRing.mpr ⟨member₀, ring⟩)
      ((Release.id_eq fixed).trans sameId)
  · rw [selection, World.commit_selection_of_same (Db.sameReleases_pruneFlags _ _),
      World.commit_selection_of_same rows]

/-- The prune raises the floor of each ring to the checkpoint it keeps below what it protects. -/
theorem Exact.pruned {floor : Ring → Nat} {w pruned : World} (inv : Exact floor w) {keep : Nat}
    {kept : Retained} {low bound : Ring → Nat}
    (retains : Retains w.db keep kept rings.reverse low bound) (isPruned : Pruned kept w pruned) :
    Exact (fun ring => max (floor ring) (bound ring)) pruned := by
  have committed : pruned = w.commit pruned.db := by
    have same : w.db.SameReleases pruned.db := by
      refine ⟨?_, by rw [isPruned.rest], by rw [isPruned.rest]⟩
      rw [isPruned.releases]
      exact (Db.sameReleases_pruneFlags w.db kept.keptCheckpoints).rows
    have selection := isPruned.selection
    rw [← World.commit_selection_of_same same] at selection
    cases pruned
    simp_all [World.commit]
  rw [committed]
  refine inv.prune retains isPruned.releases (by rw [isPruned.rest]) (by rw [isPruned.rest])
    (by rw [isPruned.rest]) isPruned.rows ?_
  intro r member above
  refine isPruned.deltas r.id ?_
  rintro ⟨ring, seq⟩ entry q inRing sameId
  obtain ⟨-, rfl, -⟩ := (retains.mem_seqs ring seq).mp entry
  obtain rfl := inv.ordered.eq_of_id (Db.mem_ofRing.mp inRing).1 member sameId
  have sameRing : q.ring = ring := (Db.mem_ofRing.mp inRing).2
  simpa [sameRing] using above

theorem Exact.swept {floor : Ring → Nat} {victims : List Package} {w w' : World}
    (inv : Exact floor w) (swept : Swept victims w w') : Exact floor w' := by
  have db := swept.rest
  have selection := swept.selection
  cases w' with
  | mk db' selection' =>
      simp only at db selection
      rw [db, selection]
      exact ⟨⟨⟨inv.ordered.ids, inv.ordered.fresh, inv.ordered.seqs, inv.ordered.heads⟩, inv.live,
        inv.chain, inv.above, inv.deltas, inv.low⟩, inv.idle, inv.rows, inv.bare⟩

/-! ## Every store the operations reach -/

/-- One operation keeps `Sound more` when the batch of a request and GC keep `more`. -/
theorem sound_op {more : (Ring → Nat) → World → Prop} (survives : Survives more)
    (kept : ∀ body, KeptByCreate more body) (op : Op) {w : World}
    (collect : ∀ params, op = .gc params → Sound more ((handleGc params).run w).2)
    (sound : Sound more w) : Sound more (op.serve.run w).2 := by
  cases op with
  | create body =>
      rw [show (Op.create body).serve = (handleCreateRelease body).bind fun _ => .pure () from rfl,
        Program.run_discard]
      exact sound_create survives (kept body) sound
  | ensure id => exact sound_ensure survives id sound
  | members id =>
      rw [show (Op.members id).serve = (releaseMembers id).bind fun _ => .pure () from rfl,
        Program.run_discard]
      exact (sound_members survives id sound).1
  | gc params =>
      rw [show (Op.gc params).serve = (handleGc params).bind fun _ => .pure () from rfl,
        Program.run_discard]
      exact collect params rfl

theorem exact_of_sequence {packages : List Package} {bucket : String → Option Blob} {w : World}
    (reached : Sequence Op.serve (fun _ _ => True) (World.fresh packages bucket) w) :
    Sound (fun _ _ => True) w := by
  refine reached.induct (Sound fun _ _ => True) ⟨_, Exact.fresh packages bucket, trivial⟩ ?_
  intro op w _ sound
  refine sound_op (.of_recounted fun _ _ _ _ h => h) (fun _ _ _ _ _ _ h _ _ => h) op ?_ sound
  intro params _
  obtain ⟨floor, inv, -⟩ := sound
  obtain ⟨kept, low, bound, pruned, retains, isPruned, ended⟩ := gc_run params inv.ordered
  rw [ended]
  have swept := Program.alone_iff.mp (deleteVictims_swept
    (sliceTo (min params.limit 500) (w.db.unreferenced kept params.cutoff)) ⟨0, 0, 0, 0⟩ pruned)
  exact ⟨_, (inv.pruned retains isPruned).swept swept, trivial⟩

/-- In every store a sequence of operations reaches, `releaseMembers` of any release throws
or gives what `ring_packages` held when the release was made. -/
theorem releaseMembers_exact {packages : List Package} {bucket : String → Option Blob} {w : World}
    (reached : Sequence Op.serve (fun _ _ => True) (World.fresh packages bucket) w) :
    ∀ r ∈ w.db.releases,
      (∃ failure, ((releaseMembers r.id).run w).1 = .error failure) ∨
      ∃ members, ((releaseMembers r.id).run w).1 = .ok members ∧
        members.rows ((releaseMembers r.id).run w).2.db = w.selection r.id := by
  intro r _
  have exact_ := (sound_members (.of_recounted fun _ _ _ _ h => h) r.id (exact_of_sequence reached)).2
  cases result : ((releaseMembers r.id).run w).1 with
  | error failure => exact .inl ⟨failure, rfl⟩
  | ok members => exact .inr ⟨members, rfl, exact_ members result⟩

/-- Three releases of edge, and a GC that keeps one. -/
def exactRun : List Op :=
  [.create { ring := "edge", add := [Package.sampleHash 'a'] },
    .create { ring := "edge", add := [Package.sampleHash 'b'] },
    .create { ring := "edge", remove := ["bash"] }, .gc { keep := 1, cutoff := 9 }]

/-- Release 2 is rebuilt from the checkpoint of release 1 although GC protects neither. -/
theorem releaseMembers_exact_exactRun :
    ∃ w, Sequence Op.serve (fun _ _ => True)
        (World.fresh [.sample 1 'a' "core" "bash", .sample 2 'b' "core" "curl"] fun _ => none) w ∧
      (w.db.releases.map (·.id) = [1, 2, 3] ∧ w.selection 2 = {1, 2}) ∧
      ∀ r ∈ w.db.releases,
        (∃ failure, ((releaseMembers r.id).run w).1 = .error failure) ∨
        ∃ members, ((releaseMembers r.id).run w).1 = .ok members ∧
          members.rows ((releaseMembers r.id).run w).2.db = w.selection r.id :=
  have reached := Runs.start.steps exactRun (by decide)
  ⟨_, reached, by decide, releaseMembers_exact reached⟩

end OmarchyPool
