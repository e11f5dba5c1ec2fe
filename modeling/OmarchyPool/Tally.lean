/-
# OmarchyPool.Tally -- what is stored on a release is of its whole selection

A release keeps the number of its packages, and its slices by source and architecture, from
the moment it was made.  They are counted over a join with `packages`, so they are of the
whole selection only if every package of it was there: which holds of a head, whose rows GC
spares, and of a checkpoint, which is written after a check of every id (`Tallied`).

The deltas above the floor are kept here too, as what changed between two selections.
-/
import OmarchyPool.Protection

namespace OmarchyPool

open Lib

set_option autoImplicit false

/-- The rows of a list of packages that a set of ids names. -/
def rowsOf (packages : List Package) (ids : Finset PackageId) : List Package :=
  packages.filter (·.id ∈ ids)

/-- Over an index that started with `packages`. -/
structure Tallied (packages : List Package) (floor : Ring → Nat) (w : World) : Prop where
  fewer : w.db.packages.Sublist packages
  live : ∀ ring, w.db.Present (w.db.ringPackages ring)
  flagged : ∀ id, Flagged w id → w.db.Present (w.selection id)
  deltas : ∀ r ∈ w.db.releases, ∀ p, r.parentId = some p → floor r.ring < r.seq →
    w.db.releaseDeltas r.id = .between (w.selection p) (w.selection r.id)
  count : ∀ r ∈ w.db.releases, ∀ n, r.packageCount = some n →
    n = (rowsOf packages (w.selection r.id)).length
  slices : ∀ r ∈ w.db.releases, ∀ slices, r.sources = some slices →
    slices = slicesOf (rowsOf packages (w.selection r.id))

/-! ## Packages that are there -/

section Index

variable {packages : List Package} (distinct : (packages.map (·.id)).Nodup)
include distinct

/-- A selection whose packages are all there joins with as many rows as it ever did. -/
theorem joined_eq {db : Db} (fewer : db.packages.Sublist packages) {ids : Finset PackageId}
    (present : db.Present ids) : db.joined ids = rowsOf packages ids := by
  refine (fewer.filter _).eq_of_length_le ?_
  refine (List.subperm_of_subset (distinct.of_map.filter _) ?_).length_le
  intro p member
  obtain ⟨inPackages, inIds⟩ := List.mem_filter.mp member
  obtain ⟨q, inTable, same⟩ := present p.id (by simpa using inIds)
  obtain rfl := List.inj_on_of_nodup_map distinct (fewer.subset inTable) inPackages same
  exact List.mem_filter.mpr ⟨inTable, inIds⟩

end Index

/-- Every element of a list is in one of its chunks. -/
theorem mem_chunks {n : Nat} (positive : 0 < n) {ids : List PackageId} {id : PackageId}
    (member : id ∈ ids) : ∃ chunk ∈ chunks n ids, id ∈ chunk := by
  obtain ⟨i, inside, rfl⟩ := List.mem_iff_getElem.mp member
  refine ⟨(ids.drop (i / n * n)).take n, List.mem_map.mpr ⟨i / n, ?_, rfl⟩, ?_⟩
  · rw [List.mem_range, Nat.lt_div_iff_mul_lt positive]
    have := Nat.div_mul_le_self i n
    omega
  · refine List.mem_iff_getElem?.mpr ⟨i % n, ?_⟩
    rw [List.getElem?_take_of_lt (Nat.mod_lt _ positive), List.getElem?_drop,
      Nat.div_add_mod' i n]
    exact List.getElem?_eq_getElem inside

/-- What `checkPresent` counted whole is all there. -/
theorem present_of_counted {db : Db} (distinct : (db.packages.map (·.id)).Nodup)
    {ids : Finset PackageId} (counted : db.Counted ids) : db.Present ids := by
  intro id member
  obtain ⟨chunk, isChunk, inChunk⟩ := mem_chunks (n := chunkSize) (by decide)
    ((Finset.mem_sort (· ≤ ·)).mpr member)
  have found : ((db.packages.filter (·.id ∈ chunk)).map (·.id)).Nodup :=
    distinct.sublist (List.filter_sublist.map _)
  have inside : (db.packages.filter (·.id ∈ chunk)).map (·.id) ⊆ chunk := by
    intro a isFound
    obtain ⟨p, member, rfl⟩ := List.mem_map.mp isFound
    simpa using (List.mem_filter.mp member).2
  have all := (List.subperm_of_subset found inside).perm_of_length_le
    (by simpa [Db.countPackages] using counted chunk isChunk)
  obtain ⟨p, isFound, same⟩ := List.mem_map.mp (all.mem_iff.mpr inChunk)
  exact ⟨p, (List.mem_filter.mp isFound).1, same⟩

namespace Tallied

theorem fresh (packages : List Package) (bucket : String → Option Blob) (floor : Ring → Nat) :
    Tallied packages floor (World.fresh packages bucket) := by
  refine ⟨.refl _, ?_, ?_, ?_, ?_, ?_⟩ <;> simp [World.fresh, Db.Present, Flagged]

variable {packages : List Package} {floor : Ring → Nat} {w : World}

/-- The releases that are listed have all their packages. -/
theorem present (tallied : Tallied packages floor w) (inv : Exact floor w) {id : ReleaseId}
    {members : Members} (listed : Listed w id members) : w.db.Present (w.selection id) := by
  cases listed with
  | live head =>
      rw [← inv.live _ id head]
      exact tallied.live _
  | rows flagged => exact tallied.flagged id flagged

/-- A write that leaves the packages, the live rows and the deltas: what is asked of the
checkpoints and the counts of the releases. -/
theorem same (tallied : Tallied packages floor w) {db : Db} (same : w.db.SameReleases db)
    (index : db.packages = w.db.packages) (live : db.ringPackages = w.db.ringPackages)
    (deltas : db.releaseDeltas = w.db.releaseDeltas)
    (flagged : ∀ id, Flagged (w.commit db) id → w.db.Present (w.selection id))
    (count : ∀ r ∈ db.releases, ∀ n, r.packageCount = some n →
      n = (rowsOf packages (w.selection r.id)).length)
    (slices : ∀ r ∈ db.releases, ∀ slices, r.sources = some slices →
      slices = slicesOf (rowsOf packages (w.selection r.id))) :
    Tallied packages floor (w.commit db) := by
  have kept := World.commit_selection_of_same same
  have there : ∀ ids, w.db.Present ids → db.Present ids := by
    intro ids present
    unfold Db.Present
    rw [index]
    exact present
  refine ⟨?_, ?_, ?_, ?_, ?_, ?_⟩
  · rw [World.commit_db, index]
    exact tallied.fewer
  · intro ring
    rw [World.commit_db, live]
    exact there _ (tallied.live ring)
  · intro id flag
    rw [kept]
    exact there _ (flagged id flag)
  · intro r member p parent above
    obtain ⟨r₀, member₀, eq⟩ := same.symm.exists_fixed member
    rw [kept, World.commit_db, deltas, ← Release.id_eq eq]
    rw [← Release.ring_eq eq, ← Release.seq_eq eq] at above
    exact tallied.deltas r₀ member₀ p ((Release.parentId_eq eq).trans parent) above
  · rw [kept]
    exact count
  · rw [kept]
    exact slices

/-- The row of a release after an update, and the row it was. -/
theorem of_updateRelease {db : Db} {id : ReleaseId} {change : Release → Release} {r : Release}
    (member : r ∈ (db.updateRelease id change).releases) :
    ∃ r₀ ∈ db.releases, r = if r₀.id = id then change r₀ else r₀ := by
  obtain ⟨r₀, member₀, eq⟩ := List.mem_map.mp member
  exact ⟨r₀, member₀, eq.symm⟩

theorem checkpoint (distinct : (packages.map (·.id)).Nodup) (tallied : Tallied packages floor w)
    {r : Release} (counted : w.db.Counted (w.selection r.id)) :
    Tallied packages floor (w.commit (w.db.materialise r.id (w.selection r.id))) := by
  have present := present_of_counted (distinct.sublist (tallied.fewer.map _)) counted
  -- The flag is all that differs in a row.
  have row : ∀ q ∈ (w.db.materialise r.id (w.selection r.id)).releases, ∃ q₀ ∈ w.db.releases,
      q.id = q₀.id ∧ q.packageCount = q₀.packageCount ∧ q.sources = q₀.sources ∧
        (q.checkpoint = true → q.id = r.id ∨ q₀.checkpoint = true) := by
    intro q member
    obtain ⟨q₀, member₀, rfl⟩ := of_updateRelease member
    refine ⟨q₀, member₀, ?_⟩
    split <;> simp_all
  refine tallied.same (Db.sameReleases_materialise _ _ _) rfl rfl rfl ?_ ?_ ?_
  · rintro id ⟨q, member, rfl, flag⟩
    obtain ⟨q₀, member₀, sameId, -, -, flags⟩ := row q member
    rcases flags flag with here | old
    · rw [here]
      exact present
    · rw [sameId]
      exact tallied.flagged q₀.id ⟨q₀, member₀, rfl, old⟩
  · intro q member n stored
    obtain ⟨q₀, member₀, sameId, sameCount, -, -⟩ := row q member
    rw [sameId]
    exact tallied.count q₀ member₀ n (sameCount.symm.trans stored)
  · intro q member slices stored
    obtain ⟨q₀, member₀, sameId, -, sameSlices, -⟩ := row q member
    rw [sameId]
    exact tallied.slices q₀ member₀ slices (sameSlices.symm.trans stored)

theorem counts (distinct : (packages.map (·.id)).Nodup) (tallied : Tallied packages floor w)
    (inv : Exact floor w) {id : ReleaseId} {members : Members} (listed : Listed w id members)
    {change : Release → Release} (stores : Stores (w.db.joined (w.selection id)) change) :
    Tallied packages floor (w.commit (w.db.updateRelease id change)) := by
  rw [joined_eq distinct tallied.fewer (tallied.present inv listed)] at stores
  have keeps := stores.keeps
  refine tallied.same (Db.sameReleases_updateRelease _ _ _ fun r => (keeps r).1) rfl rfl rfl ?_ ?_ ?_
  · rintro q ⟨r, member, rfl, flag⟩
    obtain ⟨r₀, member₀, rfl⟩ := of_updateRelease member
    have sameId : (if r₀.id = id then change r₀ else r₀).id = r₀.id := by
      split
      · exact Release.id_eq (keeps r₀).1
      · rfl
    rw [sameId]
    refine tallied.flagged r₀.id ⟨r₀, member₀, rfl, ?_⟩
    split at flag
    · exact (keeps r₀).2.symm.trans flag
    · exact flag
  · intro r member n stored
    obtain ⟨r₀, member₀, rfl⟩ := of_updateRelease member
    split at stored
    · rename_i here
      subst here
      rw [if_pos rfl, Release.id_eq (keeps r₀).1]
      cases stores with
      | summary => exact (Option.some.inj stored).symm
      | sources => exact tallied.count r₀ member₀ n stored
    · rw [if_neg ‹_›]
      exact tallied.count r₀ member₀ n stored
  · intro r member slices stored
    obtain ⟨r₀, member₀, rfl⟩ := of_updateRelease member
    split at stored
    · rename_i here
      subst here
      rw [if_pos rfl, Release.id_eq (keeps r₀).1]
      cases stores with
      | summary => exact tallied.slices r₀ member₀ slices stored
      | sources => exact (Option.some.inj stored).symm
    · rw [if_neg ‹_›]
      exact tallied.slices r₀ member₀ slices stored

end Tallied

theorem tallied_survives {packages : List Package} (distinct : (packages.map (·.id)).Nodup) :
    Survives (Tallied packages) where
  checkpoint := fun _ _ _ _ tallied _ counted => tallied.checkpoint distinct counted
  counts := fun _ _ _ _ _ inv tallied listed stores => tallied.counts distinct inv listed stores

/-! ## A new release -/

theorem tallied_create (packages : List Package) (body : CreateRelease) :
    KeptByCreate (Tallied packages) body := by
  intro floor reads now hold inv tallied next parent
  have ordered := inv.ordered
  have present : now.db.Present ((reads.batch body).target now.db) := by
    refine target_present _ ?_
    intro id isAdded
    have toNow := ((hold.toSeq.trans hold.toBase).trans hold.toLast).trans hold.toNow
    rw [show (reads.batch body).added = reads.added from rfl, hold.added] at isAdded
    rw [toNow.packages]
    exact mem_addedIds isAdded
  generalize batch : reads.batch body = b at parent present
  have sameRing : b.ring = reads.ring := by rw [← batch]; rfl
  rw [← sameRing] at parent
  have older : ∀ r ∈ now.db.releases, r.id ≠ now.db.nextRelease :=
    fun r member => Nat.ne_of_lt (ordered.fresh r member)
  have there : ∀ ids, now.db.Present ids → (now.db.applyRelease b).Present ids := by
    intro ids present
    unfold Db.Present
    rw [Db.applyRelease_packages]
    exact present
  have kept : ∀ r ∈ now.db.releases,
      (now.commit (now.db.applyRelease b)).selection r.id = now.selection r.id := by
    intro r member
    rw [World.commit_selection_applyRelease ordered, Function.update_of_ne (older r member)]
  have made : (now.commit (now.db.applyRelease b)).selection now.db.nextRelease = b.target now.db := by
    rw [World.commit_selection_applyRelease ordered, Function.update_self]
  -- A row is an old one or the new one, which has no counts yet.
  have split : ∀ r ∈ (now.db.applyRelease b).releases,
      r ∈ now.db.releases ∨ r = b.row now.db.nextRelease := by
    intro r member
    simpa using member
  refine ⟨by simpa using tallied.fewer, ?_, ?_, ?_, ?_, ?_⟩
  · intro ring
    rw [World.commit_db, Db.applyRelease_ringPackages]
    refine there _ ?_
    by_cases here : ring = b.ring
    · subst here
      rw [Function.update_self]
      exact present
    · rw [Function.update_of_ne here]
      exact tallied.live ring
  · rintro id ⟨r, member, rfl, flag⟩
    refine there _ ?_
    rcases split r member with old | rfl
    · rw [kept r old]
      exact tallied.flagged r.id ⟨r, old, rfl, flag⟩
    · rw [show (b.row now.db.nextRelease).id = now.db.nextRelease from rfl, made]
      exact present
  · intro r member p isParent above
    rw [World.commit_db, Db.applyRelease_releaseDeltas]
    rcases split r member with old | rfl
    · have parentOld : (now.commit (now.db.applyRelease b)).selection p = now.selection p := by
        rcases inv.chain r old with ⟨-, none⟩ | ⟨q, qMember, parent', -⟩
        · rw [none] at isParent
          cases isParent
        · rw [isParent] at parent'
          cases parent'
          exact kept q qMember
      rw [Function.update_of_ne (older r old), kept r old, parentOld]
      exact tallied.deltas r old p isParent above
    · have head : now.db.ringHeads b.ring = some p := parent.symm.trans isParent
      obtain ⟨q, qMember, rfl, -⟩ := ordered.head_row head
      rw [show (b.row now.db.nextRelease).id = now.db.nextRelease from rfl, made,
        Function.update_self, kept q (Db.mem_ofRing.mp qMember).1, ← inv.live b.ring q.id head]
  · intro r member n stored
    rcases split r member with old | rfl
    · rw [kept r old]
      exact tallied.count r old n stored
    · cases stored
  · intro r member slices stored
    rcases split r member with old | rfl
    · rw [kept r old]
      exact tallied.slices r old slices stored
    · cases stored

/-! ## Garbage collection -/

theorem tallied_gc {packages : List Package} (params : GcParams) {w : World}
    (sound : Sound (Tallied packages) w) : Sound (Tallied packages) ((handleGc params).run w).2 := by
  obtain ⟨floor, inv, tallied⟩ := sound
  obtain ⟨kept, low, bound, pruned, retains, isPruned, ended⟩ := gc_run params inv.ordered
  rw [ended]
  have every : ∀ ring, ring ∈ rings.reverse := fun ring => List.mem_reverse.mpr (mem_rings ring)
  generalize victims : sliceTo (min params.limit 500) (w.db.unreferenced kept params.cutoff) = list
  have outside : ∀ v ∈ list, w.db.outsideRetention kept v.id = true := by
    intro v member
    rw [← victims] at member
    exact (mem_victims member).2
  have swept := Program.alone_iff.mp (deleteVictims_swept list ⟨0, 0, 0, 0⟩ pruned)
  generalize ((deleteVictims list ⟨0, 0, 0, 0⟩).run pruned).2 = after at swept
  have samePackages : pruned.db.packages = w.db.packages := by rw [isPruned.rest]
  have selection : after.selection = w.selection := swept.selection.trans isPruned.selection
  -- A selection that retention keeps loses no package.
  have stays : ∀ ids, (∀ id ∈ ids, w.db.outsideRetention kept id = false) → w.db.Present ids →
      after.db.Present ids := by
    intro ids inside present id member
    obtain ⟨p, inTable, rfl⟩ := present id member
    refine ⟨p, swept.stays p (by rwa [samePackages]) ?_, rfl⟩
    intro v isVictim same
    have := outside v isVictim
    rw [same, inside p.id member] at this
    cases this
  -- A row after GC is a row before it, its flag perhaps dropped.
  have row : ∀ r ∈ after.db.releases, ∃ r₀ ∈ w.db.releases, r.id = r₀.id ∧ r.ring = r₀.ring ∧
      r.seq = r₀.seq ∧ r.parentId = r₀.parentId ∧ r.packageCount = r₀.packageCount ∧
      r.sources = r₀.sources ∧
      (r.checkpoint = true → r₀.checkpoint = true ∧ r₀.id ∈ kept.keptCheckpoints) := by
    intro r member
    rw [swept.rest, isPruned.releases] at member
    obtain ⟨r₀, member₀, rfl⟩ := List.mem_map.mp member
    refine ⟨r₀, member₀, ?_⟩
    split <;> simp_all
  refine ⟨_, (inv.pruned retains isPruned).swept swept, ?_, ?_, ?_, ?_, ?_, ?_⟩
  · have fewer := swept.fewer
    rw [samePackages] at fewer
    exact fewer.trans tallied.fewer
  · intro ring
    have live : after.db.ringPackages = w.db.ringPackages := by rw [swept.rest, isPruned.rest]
    rw [live]
    refine stays _ ?_ (tallied.live ring)
    intro id served
    rw [Bool.eq_false_iff]
    intro isOutside
    simp only [Db.outsideRetention, Bool.and_eq_true, List.all_eq_true] at isOutside
    exact absurd served (by simpa using isOutside.1.1 ring (mem_rings ring))
  · rintro id ⟨r, member, rfl, flag⟩
    obtain ⟨r₀, member₀, sameId, -, -, -, -, -, flags⟩ := row r member
    obtain ⟨old, isKept⟩ := flags flag
    rw [selection, sameId]
    refine stays _ ?_ (tallied.flagged r₀.id ⟨r₀, member₀, rfl, old⟩)
    intro id listed
    rw [← inv.rows r₀ member₀ old] at listed
    rw [Bool.eq_false_iff]
    intro isOutside
    simp only [Db.outsideRetention, Bool.and_eq_true, List.all_eq_true] at isOutside
    exact absurd listed (by simpa using isOutside.1.2 r₀.id isKept)
  · intro r member p parent above
    obtain ⟨r₀, member₀, sameId, sameRing, sameSeq, sameParent, -⟩ := row r member
    rw [sameRing, sameSeq] at above
    have deltas : after.db.releaseDeltas = pruned.db.releaseDeltas := by rw [swept.rest]
    rw [selection, sameId, deltas, isPruned.deltas r₀.id]
    · exact tallied.deltas r₀ member₀ p (sameParent.symm.trans parent) (by omega)
    · rintro ⟨ring, seq⟩ entry q inRing same
      obtain ⟨-, rfl, -⟩ := (retains.mem_seqs ring seq).mp entry
      obtain rfl := inv.ordered.eq_of_id (Db.mem_ofRing.mp inRing).1 member₀ same
      have qRing : q.ring = ring := (Db.mem_ofRing.mp inRing).2
      rw [qRing] at above
      exact Nat.lt_of_le_of_lt (Nat.le_max_right _ _) above
  · intro r member n stored
    obtain ⟨r₀, member₀, sameId, -, -, -, sameCount, -⟩ := row r member
    rw [selection, sameId]
    exact tallied.count r₀ member₀ n (sameCount.symm.trans stored)
  · intro r member slices stored
    obtain ⟨r₀, member₀, sameId, -, -, -, -, sameSlices, -⟩ := row r member
    rw [selection, sameId]
    exact tallied.slices r₀ member₀ slices (sameSlices.symm.trans stored)

/-- In every store a sequence of operations reaches. -/
theorem tallied_of_sequence {packages : List Package} {bucket : String → Option Blob}
    (distinct : (packages.map (·.id)).Nodup) {w : World}
    (reached : Sequence Op.serve (fun _ _ => True) (World.fresh packages bucket) w) :
    Sound (Tallied packages) w := by
  refine reached.induct (Sound (Tallied packages))
    ⟨_, Exact.fresh packages bucket, Tallied.fresh packages bucket _⟩ ?_
  intro op w _ sound
  refine sound_op (tallied_survives distinct) (tallied_create packages) op ?_ sound
  intro params _
  exact tallied_gc params sound

end OmarchyPool
