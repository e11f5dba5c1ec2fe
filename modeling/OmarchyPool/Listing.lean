/-
# OmarchyPool.Listing -- GC and what the databases of a head list

A head may serve databases of an earlier release: a carried row goes on naming the key the last
render wrote.  Retention infers from the rows that wait how far back that release can be, and
protects the releases from there on.  The inference reads rows, not bytes, and two things take
the bytes out of its sight.  A put that comes late writes an older release's database where a
newer release no longer awaits one: the row is then carried as current, retention looks no
further back than the newest releases, and GC deletes what the database lists
(`listing_late_put`).  And the end of a render drops the rows of the sources its release has no
more, while a newer release goes on naming one of them: retention stops at that release, which
never selected what the database lists (`listing_dropped_row`).

Nothing else does.  As long as every put is timely and every render ends without dropping a
database that a newer release names, retention reaches back far enough: `Marked` is how far
every GC so far has gone in each ring, and a release none of whose rows waits is never below it.
Every package a head's databases list has its row and its object (`listed_of_fits`).
-/
import OmarchyPool.Backed
import OmarchyPool.Jobs

namespace OmarchyPool

open Lib

set_option autoImplicit false

/-! ## The conditions -/

/-- Every newer release of the ring has the same slice, or awaits a render of the database. -/
def Pool.Timely (pool : Pool) (release : Release) (source : String) (arch : Arch) : Prop :=
  ∀ r ∈ pool.world.db.ofRing release.ring, release.seq < r.seq →
    pool.slice r.id source arch = pool.slice release.id source arch ∨
      pool.world.db.AwaitsDatabase r.id (repoName source release.ring) arch

instance (pool : Pool) (release : Release) (source : String) (arch : Arch) :
    Decidable (pool.Timely release source arch) := by
  unfold Pool.Timely
  infer_instance

/-- A render puts only timely databases. -/
def TimelyPuts (act : Act) (pool : Pool) : Prop :=
  match act with
  | .put i source => ∀ render ∈ pool.renders[i]?, pool.Timely render.release source render.arch
  | _ => True

instance (act : Act) (pool : Pool) : Decidable (TimelyPuts act pool) := by
  cases act <;> (unfold TimelyPuts; infer_instance)

/-- Puts are timely, and a render ends without dropping a database that goes on being named. -/
def ListingFits (act : Act) (pool : Pool) : Prop :=
  TimelyPuts act pool ∧ match act with
  | .rendered i => ∀ render ∈ pool.renders[i]?,
      pool.world.db.DropsUnnamed render.release.id render.arch ∧
        pool.world.db.StripsBare render.release.id render.arch
  | _ => True

instance (act : Act) (pool : Pool) : Decidable (ListingFits act pool) := by
  apply Act.casesOn (motive := fun act => Decidable (ListingFits act pool)) act <;> intros <;>
    (dsimp only [ListingFits]; infer_instance)

/-- A release of this seq is within reach of the one the database was rendered for. -/
def Db.Reaches (db : Db) (seq : Nat) (blob : Blob) : Prop :=
  ∃ r ∈ db.releases, blob.renderedFor = some r.id ∧ seq ≤ r.seq + carryReach

instance (db : Db) (seq : Nat) (blob : Blob) : Decidable (db.Reaches seq blob) := by
  unfold Db.Reaches
  infer_instance

/-! ## How far GC has gone -/

/-- None of the release's rows of the architecture awaits a render. -/
def Db.Current (db : Db) (release : ReleaseId) (arch : Arch) : Prop :=
  ∀ b ∈ db.artifacts, b.releaseId = release → b.arch = arch → b.awaits = none

/-- Whatever GC has deleted was selected by no release from the mark of its ring on. -/
structure Marked (mark floor : Ring → Nat) (w : World) : Prop where
  above : ∀ ring, floor ring ≤ mark ring
  present : ∀ r ∈ w.db.releases, mark r.ring ≤ r.seq → w.db.Present (w.selection r.id)
  /-- No mark is past a release that awaits nothing, or what a head can reach. -/
  behind : ∀ ring arch, (∃ r ∈ w.db.ofRing ring, w.db.Current r.id arch ∧ mark ring ≤ r.seq) ∨
    mark ring ≤ max 1 ((w.db.ofRing ring).length - carryReach)

namespace Marked

variable {mark floor : Ring → Nat} {w w' : World}

theorem fresh (packages : List Package) (bucket : String → Option Blob) :
    Marked (fun _ => 1) (fun _ => 1) (World.fresh packages bucket) := by
  refine ⟨fun _ => Nat.le_refl _, ?_, fun _ _ => .inr (Nat.le_max_left _ _)⟩
  simp [World.fresh]

/-- A mark is at most the seq of the ring's last release. -/
theorem le_length (marked : Marked mark floor w) (ordered : w.db.Ordered) (ring : Ring)
    (some_ : 1 ≤ (w.db.ofRing ring).length) : mark ring ≤ (w.db.ofRing ring).length := by
  rcases marked.behind ring .x86_64 with ⟨r, isOf, -, below⟩ | below
  · exact below.trans (ordered.seq_le isOf).2
  · omega

/-- Writes that leave the releases and the history, delete no row of a package, and make rows
of databases current at most. -/
theorem same (marked : Marked mark floor w) (same : w.db.SameReleases w'.db)
    (selection : w'.selection = w.selection) (packages : w'.db.packages = w.db.packages)
    (rows : ∀ b ∈ w'.db.artifacts, b ∈ w.db.artifacts ∨ b.awaits = none) : Marked mark floor w' where
  above := marked.above
  present := by
    intro r member above
    obtain ⟨r₀, member₀, eq⟩ := same.symm.exists_fixed member
    rw [selection, ← Release.id_eq eq]
    unfold Db.Present
    rw [packages]
    refine marked.present r₀ member₀ ?_
    rwa [Release.ring_eq eq, Release.seq_eq eq]
  behind := by
    intro ring arch
    rw [same.length_ofRing]
    refine (marked.behind ring arch).imp_left ?_
    rintro ⟨r, isOf, current, below⟩
    obtain ⟨r', isOf', eq⟩ := row_of_same same isOf
    refine ⟨r', isOf', ?_, by rwa [Release.seq_eq eq]⟩
    intro b member whose isArch
    exact (rows b member).elim (fun old => current b old (whose.trans (Release.id_eq eq)) isArch) id

/-- A new release selects what is there. -/
theorem create (marked : Marked mark floor w) (inv : Exact floor w) {b : CreateBatch}
    (parent : b.parent = w.db.ringHeads b.ring) (target : w.db.Present (b.target w.db)) :
    Marked mark floor (w.commit (w.db.applyRelease b)) where
  above := marked.above
  present := by
    intro r member above
    obtain ⟨kept, made⟩ := Waits.selection_create inv b
    unfold Db.Present
    rw [World.commit_db, Db.applyRelease_packages]
    rw [World.commit_db, Db.applyRelease_releases, List.mem_append, List.mem_singleton] at member
    rcases member with old | rfl
    · rw [kept r old]
      exact marked.present r old above
    · rw [show (b.row w.db.nextRelease).id = w.db.nextRelease from rfl, made]
      exact target
  behind := by
    intro ring arch
    rw [World.commit_db, Db.length_applyRelease]
    rcases marked.behind ring arch with ⟨r, isOf, current, below⟩ | below
    · have older := (Db.mem_ofRing.mp isOf).1
      refine .inl ⟨r, ?_, ?_, below⟩
      · rw [Db.applyRelease_ofRing]
        split
        · exact List.mem_append_left _ isOf
        · exact isOf
      · intro row member whose
        refine current row ((applyRelease_older inv.toRooted parent ?_).mp member) whose
        rw [whose]
        exact Nat.ne_of_lt (inv.ordered.fresh r older)
    · refine .inr ?_
      split <;> omega

/-- What a protected release selects is inside retention. -/
theorem named (marked : Marked mark floor w) (inv : Exact floor w) {keep : Nat} {retained : Retained}
    {low bound : Ring → Nat} (retains : Retains w.db keep retained rings.reverse low bound) {r : Release}
    (member : r ∈ w.db.releases) (marks : mark r.ring ≤ r.seq) (lows : low r.ring ≤ r.seq) {id : PackageId}
    (listed : id ∈ w.selection r.id) : w.db.outsideRetention retained id = false := by
  have every : r.ring ∈ rings.reverse := List.mem_reverse.mpr (mem_rings _)
  rw [Bool.eq_false_iff]
  intro outside
  simp only [Db.outsideRetention, Bool.and_eq_true, List.all_eq_true] at outside
  obtain ⟨⟨unserved, -⟩, unnamed⟩ := outside
  rcases served_or_removed inv member ((marked.above r.ring).trans marks) listed with served | ⟨q, qIn, later, removed⟩
  · exact absurd served (by simpa using unserved r.ring (mem_rings _))
  · have protectedQ := (retains.mem_protected r.ring every q qIn).mpr (by omega)
    have := unnamed q.id protectedQ
    simp [removed] at this

/-- What GC protects from is no further than a release that awaits nothing, or than the reach. -/
theorem behind_low (ordered : w.db.Ordered) {keep : Nat} (some_ : 1 ≤ keep) {retained : Retained}
    {low bound : Ring → Nat} (retains : Retains w.db keep retained rings.reverse low bound) (ring : Ring)
    (arch : Arch) : (∃ r ∈ w.db.ofRing ring, w.db.Current r.id arch ∧ low ring ≤ r.seq) ∨
      low ring ≤ max 1 ((w.db.ofRing ring).length - carryReach) := by
  have every : ring ∈ rings.reverse := List.mem_reverse.mpr (mem_rings ring)
  have near := retains.near ring every
  cases last : (w.db.ofRing ring).getLast? with
  | none =>
      rw [List.getLast?_eq_none_iff.mp last] at near ⊢
      exact .inr (by simp only [List.length_nil] at near ⊢; omega)
  | some head =>
      have headSeq := ordered.getLast_seq last
      have isOf := List.mem_of_getLast? last
      by_cases isCarried : arch ∈ w.db.carriedArches head.id
      · -- The last release before the head whose rows of it were all rendered, or the reach.
        have carried := retains.carried ring every head last arch isCarried
        unfold Db.carriedBound Db.renderedBefore at carried
        cases found : (w.db.newestFirst ring).find? fun r =>
            r.seq < head.seq && head.seq ≤ r.seq + carryReach && w.db.rendered r arch with
        | none =>
            rw [found, Option.map_none, Option.getD_none, headSeq] at carried
            exact .inr carried
        | some r =>
            rw [found, Option.map_some, Option.getD_some] at carried
            have rendered := List.find?_some found
            simp only [Bool.and_eq_true, Db.rendered, List.all_eq_true] at rendered
            refine .inl ⟨r, ordered.mem_newestFirst.mp (List.mem_of_find?_eq_some found), ?_, carried⟩
            intro b member whose isArch
            simpa using rendered.2.2 b (Db.mem_artifactsOf.mpr ⟨member, whose, isArch⟩)
      · refine .inl ⟨head, isOf, ?_, ?_⟩
        · intro b member whose isArch
          by_contra awaits
          refine isCarried (List.mem_filter.mpr ⟨mem_repoArches _, ?_⟩)
          exact List.any_eq_true.mpr ⟨b, Db.mem_artifactsOf.mpr ⟨member, whose, isArch⟩,
            Option.isSome_iff_ne_none.mpr awaits⟩
        · have := (ordered.seq_le isOf).1
          omega

/-- A GC run moves each mark up to where it protects its ring from. -/
theorem collected (marked : Marked mark floor w) (inv : Exact floor w) {keep : Nat} (some_ : 1 ≤ keep)
    {retained : Retained} {low bound : Ring → Nat}
    (retains : Retains w.db keep retained rings.reverse low bound) (same : w.db.SameReleases w'.db)
    (selection : w'.selection = w.selection) (rows : w'.db.artifacts = w.db.artifacts)
    (stays : ∀ p ∈ w.db.packages, w.db.outsideRetention retained p.id = false → p ∈ w'.db.packages) :
    Marked (fun ring => max (mark ring) (low ring)) (fun ring => max (floor ring) (bound ring)) w' where
  above := by
    intro ring
    have := marked.above ring
    have := retains.floor_le ring (List.mem_reverse.mpr (mem_rings ring))
    omega
  present := by
    intro r member above id listed
    obtain ⟨r₀, member₀, eq⟩ := same.symm.exists_fixed member
    rw [← Release.ring_eq eq, ← Release.seq_eq eq] at above
    rw [selection, ← Release.id_eq eq] at listed
    have marks : mark r₀.ring ≤ r₀.seq := (Nat.le_max_left ..).trans above
    have lows : low r₀.ring ≤ r₀.seq := (Nat.le_max_right ..).trans above
    obtain ⟨p, inTable, rfl⟩ := marked.present r₀ member₀ marks id listed
    exact ⟨p, stays p inTable (marked.named inv retains member₀ marks lows listed), rfl⟩
  behind := by
    intro ring arch
    rw [same.length_ofRing]
    have still : ∀ {seq}, (∃ r ∈ w.db.ofRing ring, w.db.Current r.id arch ∧ seq ≤ r.seq) →
        ∃ r ∈ w'.db.ofRing ring, w'.db.Current r.id arch ∧ seq ≤ r.seq := by
      rintro seq ⟨r, isOf, current, below⟩
      obtain ⟨r', isOf', eq⟩ := row_of_same same isOf
      refine ⟨r', isOf', ?_, by rwa [Release.seq_eq eq]⟩
      unfold Db.Current
      rw [rows, Release.id_eq eq]
      exact current
    rcases Nat.le_total (mark ring) (low ring) with le | le
    · rw [Nat.max_eq_right le]
      exact (behind_low inv.ordered some_ retains ring arch).imp_left still
    · rw [Nat.max_eq_left le]
      exact (marked.behind ring arch).imp_left still

end Marked

/-! ## The invariant -/

structure Listing (index : List Package) (readers : List Release) (floor : Ring → Nat) (w : World) : Prop
    extends Backed index readers w where
  sub : ∀ p ∈ w.db.packages, p ∈ index
  ids : (w.db.packages.map (·.id)).Nodup
  distinct : (index.map (·.id)).Nodup
  stored : Stored w.db
  marked : ∃ mark, Marked mark floor w

namespace Listing

variable {index : List Package} {readers : List Release} {floor : Ring → Nat} {w w' : World}

theorem fresh {packages : List Package} {bucket : String → Option Blob}
    (distinct : (packages.map (·.id)).Nodup) (indexed : ∀ p ∈ packages, p.indexed = true)
    (objects : ∀ p ∈ packages, p.ghost = false → (bucket p.key).isSome = true) :
    Listing packages [] (fun _ => 1) (World.fresh packages bucket) :=
  ⟨.fresh packages bucket, fun _ member => member, distinct, distinct, ⟨indexed, objects⟩,
    _, .fresh packages bucket⟩

/-- What a head names, and is within reach of, is all there. -/
theorem present (listing : Listing index readers floor w) (inv : Exact floor w) {ring : Ring} {head : Release}
    (isOf : head ∈ w.db.ofRing ring) (isHead : w.db.ringHeads ring = some head.id) {b : Artifact}
    (names : w.db.Names head.id b) {blob : Blob} (held : blob ∈ w.db.bucket b.r2Key)
    (reaches : w.db.Reaches head.seq blob) : w.db.Present blob.lists := by
  obtain ⟨mark, marked⟩ := listing.marked
  have ordered := inv.ordered
  have selected : ∀ u ∈ w.db.ofRing ring, mark ring ≤ u.seq → blob.lists ⊆ w.selection u.id →
      w.db.Present blob.lists := by
    intro u uIn above inside id listed
    obtain ⟨uMember, rfl⟩ := Db.mem_ofRing.mp uIn
    exact marked.present u uMember above id (inside listed)
  rcases marked.behind ring b.arch with ⟨r, rIn, current, below⟩ | below
  · -- A release that awaits nothing: the bytes are of its selection, or a newer one's.
    rcases listing.backed ring head.id isHead b names blob held r rIn with awaits | ⟨u, uIn, later, inside⟩
    · obtain ⟨⟨c, inTable, whose, isArch, isDb, repo⟩, all⟩ := Db.awaitsDatabase_iff.mp awaits
      have awaits := all c inTable whose isArch isDb repo
      rw [current c inTable whose isArch] at awaits
      cases awaits
    · exact selected u uIn (below.trans later) inside
  · obtain ⟨r, rMember, isFor, within⟩ := reaches
    obtain ⟨source, q, qMember, repo, isFor', lists⟩ := listing.bytes b names.1 names.2.1 blob held
    obtain rfl := ordered.eq_of_id qMember rMember (Option.some.inj (isFor'.symm.trans isFor))
    have sameRing : q.ring = ring := by
      obtain ⟨s, ring', -, is, repo', -⟩ := listing.keyed b names.1 names.2.1
      have above := isOf_ancestors inv.toRooted 12 (isOf_head inv.toRooted isHead)
        (List.mem_of_find?_eq_some names.2.2)
      rw [isOf_unique inv.toRooted is above] at repo'
      exact (repoName_injective (repo.symm.trans repo')).2
    have qIn : q ∈ w.db.ofRing ring := Db.mem_ofRing.mpr ⟨qMember, sameRing⟩
    obtain ⟨h, hIn, sameId, headSeq⟩ := ordered.head_row isHead
    obtain rfl := ordered.eq_of_id (Db.mem_ofRing.mp hIn).1 (Db.mem_ofRing.mp isOf).1 sameId
    have bounds := ordered.seq_le qIn
    refine selected q qIn (by omega) ?_
    rw [lists]
    exact sliceOf_subset ..

/-! ## Slices kept on a release -/

theorem slicesOf_bare {rows : List Package} {arch : Arch} :
    (slicesOf rows).all (·.arch != arch) = true ↔ ∀ p ∈ rows, p.repoArch ≠ arch := by
  unfold slicesOf
  simp only [List.all_map, List.all_eq_true, Function.comp_apply, bne_iff_ne, ne_eq]
  constructor
  · intro none p member
    exact none (p.repoArch, p.source) ((List.perm_insertionSort _ _).mem_iff.mpr
      (List.mem_dedup.mpr (List.mem_map.mpr ⟨p, member, rfl⟩)))
  · rintro none ⟨a, source⟩ member
    obtain ⟨p, inRows, eq⟩ := List.mem_map.mp (List.mem_dedup.mp ((List.perm_insertionSort _ _).mem_iff.mp member))
    cases eq
    exact none p inRows

theorem release?_map {db db' : Db} {change : Release → Release} (ids : ∀ r, (change r).id = r.id)
    (releases : db'.releases = db.releases.map change) (id : ReleaseId) :
    db'.release? id = (db.release? id).map change := by
  unfold Db.release?
  rw [releases, List.find?_map]
  simp only [Function.comp_def, ids]

/-- Releases whose slices are left are bare as they were. -/
theorem bare_map {db db' : Db} {change : Release → Release} (ids : ∀ r, (change r).id = r.id)
    (releases : db'.releases = db.releases.map change) (sources : ∀ r, (change r).sources = r.sources) :
    db'.bare = db.bare := by
  funext id arch
  unfold Db.bare
  rw [release?_map ids releases]
  cases db.release? id with
  | none => rfl
  | some r => simp [sources]

/-- What is stored on a release says of an architecture what it said before, or whether the index
has packages of it that the release selects. -/
theorem bare_stores {id : ReleaseId} {change : Release → Release}
    (stores : Stores (w.db.joined (w.selection id)) change) (release : ReleaseId) (arch : Arch) :
    (w.db.updateRelease id change).bare release arch = w.db.bare release arch ∨
      release = id ∧ ((w.db.updateRelease id change).bare release arch = true ↔
        ∀ p ∈ w.db.packages, p.id ∈ w.selection id → p.repoArch ≠ arch) := by
  have read : (w.db.updateRelease id change).release? release =
      (w.db.release? release).map fun r => if r.id = id then change r else r := by
    refine release?_map ?_ rfl release
    intro r
    split
    · exact Release.id_eq (stores.keeps r).1
    · rfl
  unfold Db.bare
  rw [read]
  cases found : w.db.release? release with
  | none => exact .inl rfl
  | some r =>
      have isRelease : r.id = release := by simpa using List.find?_some found
      by_cases here : r.id = id
      · cases stores with
        | summary => exact .inl (by simp [here])
        | sources =>
            refine .inr ⟨isRelease.symm.trans here, ?_⟩
            simp only [Option.map_some, here, if_true, Option.bind_some, Option.any_some, slicesOf_bare,
              Db.joined, List.mem_filter, decide_eq_true_eq, and_imp]
      · exact .inl (by simp [here])

/-- Checkpoints made, and rows of packages and objects that go. -/
theorem leaves (listing : Listing index readers floor w) (change : Release → Release)
    (fixed : ∀ r, (change r).fixed = r.fixed) (sources : ∀ r, (change r).sources = r.sources)
    (releases : w'.db.releases = w.db.releases.map change) (same : w.db.SameReleases w'.db)
    (rows : w'.db.artifacts = w.db.artifacts) (selection : w'.selection = w.selection)
    (bucket : ∀ key blob, w'.db.bucket key = some blob → w.db.bucket key = some blob)
    (packages : w'.db.packages.Sublist w.db.packages) : Backed index readers w' := by
  have bareSame := bare_map (fun r => Release.id_eq (fixed r)) releases sources
  refine listing.toBacked.quiet same rows selection bucket (fun id arch is => by rwa [bareSame]) ?_
  rw [bareSame, selection]
  exact fun id arch is p member => listing.bare id arch is p (packages.subset member)

theorem survives : Survives (Listing index readers) where
  checkpoint := by
    intro floor w r inv listing member counted
    have settled := Settled.materialise w r.id (w.selection r.id)
    refine ⟨listing.leaves (fun q => if q.id = r.id then { q with checkpoint := true } else q) ?_ ?_ rfl
      settled.releases rfl settled.selection (fun _ _ held => held) (.refl _), listing.sub, listing.ids,
      listing.distinct, ⟨listing.stored.indexed, listing.stored.objects⟩, ?_⟩
    · intro q
      split <;> rfl
    · intro q
      split <;> rfl
    · obtain ⟨mark, marked⟩ := listing.marked
      exact ⟨mark, marked.same settled.releases settled.selection rfl fun _ member => .inl member⟩
  counts := by
    intro floor w id members change inv listing isListed stores
    have later := Recounted.updateRelease w id change fun r =>
      ⟨(stores.keeps r).1, fun flag => (stores.keeps r).2.trans flag⟩
    refine ⟨listing.toBacked.quiet later.releases rfl later.selection (fun _ _ held => held) ?_ ?_, listing.sub,
      listing.ids, listing.distinct, ⟨listing.stored.indexed, listing.stored.objects⟩, ?_⟩
    · intro y arch is
      rcases bare_stores stores y arch with same | ⟨rfl, exactly⟩
      · exact same.trans is
      · exact exactly.mpr (listing.bare y arch is)
    · intro y arch is
      rw [later.selection]
      rcases bare_stores stores y arch with same | ⟨rfl, exactly⟩
      · exact listing.bare y arch (same.symm.trans is)
      · exact exactly.mp is
    · obtain ⟨mark, marked⟩ := listing.marked
      exact ⟨mark, marked.same later.releases later.selection rfl fun _ member => .inl member⟩

/-! ## Requests -/

/-- Of selections whose packages are all there, the index and the rows have the same slices. -/
theorem archSlice_present (listing : Listing index readers floor w) {ids : Finset PackageId}
    (present : w.db.Present ids) (arch : Arch) :
    archSlice index ids arch = archSlice w.db.packages ids arch := by
  ext id
  simp only [archSlice, Finset.mem_filter, List.any_eq_true, Bool.and_eq_true, beq_iff_eq]
  refine and_congr_right fun member => ⟨?_, ?_⟩
  · rintro ⟨p, inIndex, rfl, isArch⟩
    obtain ⟨q, inTable, sameId⟩ := present p.id member
    rw [← List.inj_on_of_nodup_map listing.distinct (listing.sub q inTable) inIndex sameId] at isArch ⊢
    exact ⟨q, inTable, rfl, isArch⟩
  · rintro ⟨p, inTable, is⟩
    exact ⟨p, listing.sub p inTable, is⟩

/-- What a ring serves is all there. -/
theorem served (listing : Listing index readers floor w) (inv : Exact floor w) (ring : Ring) :
    w.db.Present (w.db.ringPackages ring) := by
  cases isHead : w.db.ringHeads ring with
  | none =>
      rw [inv.idle ring isHead]
      intro id listed
      cases listed
  | some head =>
      obtain ⟨mark, marked⟩ := listing.marked
      obtain ⟨r, isOf, rfl, seq⟩ := inv.ordered.head_row isHead
      rw [inv.live ring r.id isHead]
      obtain ⟨member, rfl⟩ := Db.mem_ofRing.mp isOf
      have bounds := inv.ordered.seq_le isOf
      refine marked.present r member ?_
      have := marked.le_length inv.ordered r.ring (by omega)
      omega

theorem kept (index : List Package) (readers : List Release) (body : CreateRelease) :
    KeptByCreate (Listing index readers) body := by
  intro floor reads now hold inv listing next parent
  have toNow := ((hold.toSeq.trans hold.toBase).trans hold.toLast).trans hold.toNow
  have target : now.db.Present ((reads.batch body).target now.db) := by
    refine target_present _ ?_
    intro id isAdded
    rw [show (reads.batch body).added = reads.added from rfl, hold.added] at isAdded
    rw [toNow.packages]
    exact mem_addedIds isAdded
  obtain ⟨mark, marked⟩ := listing.marked
  refine ⟨listing.toBacked.create inv parent ?_, ?_, ?_, listing.distinct,
    listing.stored.fewer (by simp) (by simp), mark, marked.create inv parent target⟩
  · intro arch isUnchanged
    rw [listing.archSlice_present target, listing.archSlice_present (listing.served inv _)]
    exact target_unchanged hold listing.ids isUnchanged
  · simpa using listing.sub
  · simpa using listing.ids

theorem put (listing : Listing index readers floor w) (inv : Exact floor w) {release : Release}
    (known : Known w release) {source : String} {arch : Arch} {bytes : Blob}
    (isFor : bytes.renderedFor = some release.id)
    (lists : bytes.lists = sliceOf index (w.selection release.id) source arch)
    (plain : '/' ∉ source.toList)
    (posted : Posted w w' (databaseRow release.id source release.ring arch bytes.size) bytes)
    (timely : ∀ r ∈ w.db.ofRing release.ring, release.seq < r.seq →
      sliceOf index (w.selection r.id) source arch = sliceOf index (w.selection release.id) source arch ∨
        w.db.AwaitsDatabase r.id (repoName source release.ring) arch) : Listing index readers floor w' := by
  have packages : w'.db.packages = w.db.packages := by rw [posted.shelved.rest]
  obtain ⟨mark, marked⟩ := listing.marked
  refine ⟨listing.toBacked.put inv known plain posted isFor lists timely, ?_, ?_, listing.distinct, ⟨?_, ?_⟩, mark, ?_⟩
  · rw [packages]
    exact listing.sub
  · rw [packages]
    exact listing.ids
  · rw [packages]
    exact listing.stored.indexed
  · intro p member real
    rw [packages] at member
    exact posted.kept _ (listing.stored.objects p member real)
  · exact marked.same posted.shelved.same posted.shelved.selection packages fun b member =>
      (posted.posting.rows b member).imp_right And.left

theorem rendered (listing : Listing index readers floor w) (inv : Exact floor w) {id : ReleaseId} {arch : Arch}
    (unnamed : w.db.DropsUnnamed id arch) (strips : w.db.StripsBare id arch) :
    Listing index readers floor ((handleRendered id arch.name).run w).2 := by
  have dropped := rendered_dropped id arch.name w
  have packages : ((handleRendered id arch.name).run w).2.db.packages = w.db.packages := by
    rw [dropped.shelved.rest]
  obtain ⟨mark, marked⟩ := listing.marked
  refine ⟨listing.toBacked.rendered inv unnamed strips, ?_, ?_, listing.distinct,
    listing.stored.fewer dropped.bucket fun p member => by rwa [packages] at member, mark, ?_⟩
  · rw [packages]
    exact listing.sub
  · rw [packages]
    exact listing.ids
  · exact marked.same dropped.shelved.same dropped.shelved.selection packages fun b member =>
      .inl (dropped.rows b member)

end Listing

/-! ## Garbage collection -/

/-- Objects go, and none comes. -/
def Shrinks (w w' : World) : Prop :=
  ∀ key blob, w'.db.bucket key = some blob → w.db.bucket key = some blob

/-- A GC run puts no object. -/
theorem gc_shrinks (params : GcParams) (w : World) : Shrinks w ((handleGc params).run w).2 := by
  let shrinking : Contract World Event := ⟨fun _ => True, Eq, Shrinks, fun _ _ => True⟩
  have trans : ∀ a b d : World, Shrinks a b → Shrinks b d → Shrinks a d :=
    fun _ _ _ first second key blob held => first key blob (second key blob held)
  have refl : ∀ a : World, Shrinks a a := fun _ _ _ held => held
  have spec := Program.Only.spec (c := shrinking) Shrinks trans refl (by rintro a _ rfl; exact refl a)
    (fun _ _ shrinks => shrinks) ?_ (gc_only params) (s := w) trivial
  · exact (Program.run_spec (c := shrinking) (fun _ => rfl) (fun _ _ => trivial) trivial spec).2.1
  intro event write collects t _ _
  refine ⟨trivial, ?_⟩
  cases collects with
  | read => exact refl t
  | pruneRows kept => exact refl t
  | pruneFlags kept => exact refl t
  | pruneDeltas ring seq => exact refl t
  | deleteObject victim =>
      intro key blob held
      simp only [World.commit_db, Db.deleteObject] at held
      split at held
      · cases held
      · exact held
  | deleteRow victim =>
      intro key blob held
      simp only [World.commit_db, Db.deleteRow] at held
      split at held <;> exact held

/-- GC moves the marks to what it protects from. -/
theorem listing_gc (index : List Package) (readers : List Release) (params : GcParams) {w : World}
    (sound : Sound (Listing index readers) w) : Sound (Listing index readers) ((handleGc params).run w).2 := by
  obtain ⟨floor, inv, listing⟩ := sound
  have shrinks := gc_shrinks params w
  obtain ⟨retained, low, bound, pruned, retains, isPruned, ended⟩ := gc_run params inv.ordered
  rw [ended] at shrinks ⊢
  generalize victims : sliceTo (min params.limit 500) (w.db.unreferenced retained params.cutoff) = list
    at shrinks ⊢
  have outside : ∀ v ∈ list, v ∈ w.db.packages ∧ w.db.outsideRetention retained v.id = true := by
    intro v member
    rw [← victims] at member
    exact mem_victims member
  have samePackages : pruned.db.packages = w.db.packages := by rw [isPruned.rest]
  have stored : Stored pruned.db :=
    listing.stored.fewer (by rw [isPruned.rest]) fun p member => by rwa [samePackages] at member
  have storedAfter := Program.alone_iff.mp (deleteVictims_stored list
    (fun v member => listing.stored.indexed v (outside v member).1) ⟨0, 0, 0, 0⟩ stored)
  have swept := Program.alone_iff.mp (deleteVictims_swept list ⟨0, 0, 0, 0⟩ pruned)
  generalize ((deleteVictims list ⟨0, 0, 0, 0⟩).run pruned).2 = after at swept storedAfter shrinks ⊢
  have releases : after.db.releases = (w.db.pruneFlags retained.keptCheckpoints).releases := by
    rw [swept.rest]
    exact isPruned.releases
  have same : w.db.SameReleases after.db := by
    refine ⟨?_, by rw [swept.rest, isPruned.rest], by rw [swept.rest, isPruned.rest]⟩
    rw [releases]
    exact (Db.sameReleases_pruneFlags w.db retained.keptCheckpoints).rows
  have selection : after.selection = w.selection := swept.selection.trans isPruned.selection
  have rows : after.db.artifacts = w.db.artifacts := by rw [swept.rest, isPruned.rest]
  have fewer : after.db.packages.Sublist w.db.packages := by
    rw [← samePackages]
    exact swept.fewer
  obtain ⟨mark, marked⟩ := listing.marked
  have marks := marked.collected inv (Nat.le_max_left 1 params.keep) retains same selection rows (by
    intro p inTable inside
    refine swept.stays p (by rwa [samePackages]) ?_
    intro v isVictim sameId
    rw [← sameId, (outside v isVictim).2] at inside
    cases inside)
  refine ⟨_, (inv.pruned retains isPruned).swept swept, listing.leaves (fun r =>
      if r.id ∈ retained.keptCheckpoints then r else { r with checkpoint := false }) ?_ ?_ releases same rows
      selection shrinks fewer, fun p member => listing.sub p (fewer.subset member),
    listing.ids.sublist (fewer.map _), listing.distinct, storedAfter, _, marks⟩
  · intro r
    split <;> rfl
  · intro r
    split <;> rfl

/-! ## Every run -/

/-- The invariant of a pool. -/
def Pool.Lists (index : List Package) (pool : Pool) : Prop :=
  pool.index = index ∧ Sound (Listing index (pool.renders.map (·.release))) pool.world

theorem listing_next (press : Press) {index : List Package} {pool : Pool} {act : Act}
    (fits : ListingFits act pool) (lists : pool.Lists index) : (pool.next press act).Lists index := by
  obtain ⟨isIndex, inner⟩ := lists
  refine ⟨(pool.next_index press act).trans isIndex, ?_⟩
  have ⟨floor, inv, listing⟩ := inner
  cases act with
  | create body => exact sound_create Listing.survives (Listing.kept index _ body) inner
  | gc params => exact listing_gc index _ params inner
  | start id arch =>
      unfold Pool.next
      dsimp only
      cases read : pool.world.db.release? id with
      | none => exact inner
      | some release =>
          have waits := listing.toWaits.start (List.mem_of_find?_eq_some read)
          refine ⟨floor, inv, { listing with toWaits := ?_ }⟩
          rwa [List.map_append]
  | put i source =>
      unfold Pool.next
      dsimp only
      cases found : pool.renders[i]? with
      | none => exact inner
      | some render =>
          dsimp only
          split
          · rw [map_release_set found]
            have known := listing.readers _ (List.mem_map_of_mem (List.mem_of_getElem? found))
            have timely := fits.1 render (by rw [found]; rfl)
            obtain unchanged | ⟨plain, posted⟩ := render.put_run press pool source
            · rw [unchanged]
              exact inner
            · refine ⟨floor, inv.shelved posted.shelved, listing.put inv known rfl ?_ plain posted ?_⟩
              · rw [← isIndex]
                rfl
              · rw [← isIndex]
                exact timely
          · exact inner
  | rendered i =>
      unfold Pool.next
      dsimp only
      cases found : pool.renders[i]? with
      | none => exact inner
      | some render =>
          dsimp only
          split
          · obtain ⟨unnamed, strips⟩ := fits.2 render (by rw [found]; rfl)
            have dropped := rendered_dropped render.release.id render.arch.name pool.world
            exact ⟨floor, inv.shelved dropped.shelved, listing.rendered inv unnamed strips⟩
          · exact inner

/-- Releases made, databases put, renders ended and garbage collected in any order, as long as
puts are timely and no render ends by dropping a database that goes on being named: a package
that a database of a ring's head lists has its row, and its object. -/
theorem listed_of_fits (press : Press) {packages : List Package} {bucket : String → Option Blob}
    (distinct : (packages.map (·.id)).Nodup) (indexed : ∀ p ∈ packages, p.indexed = true)
    (objects : ∀ p ∈ packages, p.ghost = false → (bucket p.key).isSome = true) {pool : Pool}
    (reached : Runs (Pool.next press) ListingFits (Pool.fresh packages bucket) pool) :
    ∀ ring, ∀ head ∈ pool.world.db.ringHead ring, ∀ b ∈ pool.world.db.artifacts, b.releaseId = head.id →
      b.kind = .db → ∀ blob ∈ pool.world.db.bucket b.r2Key, pool.world.db.Reaches head.seq blob →
      ∀ id ∈ blob.lists, ∃ p ∈ pool.world.db.packages, p.id = id ∧
        (p.ghost = false → (pool.world.db.bucket p.key).isSome = true) := by
  have lists : pool.Lists packages := by
    refine reached.induct (Pool.Lists packages) ?_ fun _ _ fits kept => listing_next press fits kept
    exact ⟨rfl, _, Exact.fresh packages bucket, Listing.fresh distinct indexed objects⟩
  obtain ⟨-, floor, inv, listing⟩ := lists
  intro ring head isRingHead b member whose isDb blob held reaches id listed
  obtain ⟨headId, isHead, read⟩ := Option.bind_eq_some_iff.mp isRingHead
  obtain ⟨r, rIn, rfl, -⟩ := inv.ordered.head_row isHead
  obtain rfl : r = head :=
    Option.some.inj ((inv.ordered.release?_of_mem (Db.mem_ofRing.mp rIn).1).symm.trans read)
  have names : pool.world.db.Names r.id b := ⟨member, isDb, by rw [← whose]; exact nearest_of_row member⟩
  obtain ⟨p, inTable, sameId⟩ := listing.present inv rIn isHead names held reaches id listed
  exact ⟨p, inTable, sameId, listing.stored.objects p inTable⟩

/-! ## Runs -/

/-- A package, two versions of another, and one of the other architecture. -/
def listedIndex : List Package :=
  [.sample 1 'a' "core" "nano", .sample 2 'b' "core" "bash", .sample 3 'c' "core" "bash" "1.1-1",
    .sample 4 'd' "core" "curl" "1.0-1" .aarch64]

def listedBucket (key : String) : Option Blob :=
  if listedIndex.any (·.key == key) then some ⟨1, ∅, none⟩ else none

/-- Edge's second release replaces bash and serves the first one's database until its own render
comes; GC in between keeps the old bash, and takes the package no release ever had. -/
def awaitedRun : List Act :=
  [.create { ring := "edge", add := [Package.sampleHash 'a', Package.sampleHash 'b'] }, .start 1 .x86_64,
    .put 0 "core", .rendered 0, .create { ring := "edge", add := [Package.sampleHash 'c'] },
    .gc { keep := 1, cutoff := 9 }]

theorem listed_of_awaitedRun :
    ∃ pool, Runs (Pool.next plainPress) ListingFits (Pool.fresh listedIndex listedBucket) pool ∧
      (pool.world.db.ringHeads .edge = some 2 ∧ pool.world.db.packages.map (·.id) = [1, 2, 3]) ∧
      ∀ ring, ∀ head ∈ pool.world.db.ringHead ring, ∀ b ∈ pool.world.db.artifacts,
        b.releaseId = head.id → b.kind = .db → ∀ blob ∈ pool.world.db.bucket b.r2Key,
        pool.world.db.Reaches head.seq blob → ∀ id ∈ blob.lists,
        ∃ p ∈ pool.world.db.packages, p.id = id ∧
          (p.ghost = false → (pool.world.db.bucket p.key).isSome = true) :=
  have reached := Runs.start.steps awaitedRun (by decide)
  ⟨_, reached, by decide, listed_of_fits plainPress (by decide) (by decide) (by decide) reached⟩

/-- A render starts only when none of a later release of the ring, of its architecture, is done. -/
def Orderly (act : Act) (pool : Pool) : Prop :=
  match act with
  | .start id arch => ∀ r ∈ pool.world.db.release? id, ∀ done ∈ pool.finished,
      done.1.ring = r.ring → done.2 = arch → done.1.seq ≤ r.seq
  | _ => True

instance (act : Act) (pool : Pool) : Decidable (Orderly act pool) := by
  cases act <;> (unfold Orderly; infer_instance)

/-- The second release's render starts and stops short of its put; the third, which replaces
bash, is made and rendered whole; then the second's render puts.  The fourth changes the other
architecture, so it carries the row as current, and GC deletes the old bash. -/
def overwrittenRun : List Act :=
  [.create { ring := "edge", add := [Package.sampleHash 'a'] },
    .create { ring := "edge", add := [Package.sampleHash 'b'] }, .start 2 .x86_64,
    .create { ring := "edge", add := [Package.sampleHash 'c'] }, .start 3 .x86_64, .put 1 "core",
    .rendered 1, .put 0 "core",
    .create { ring := "edge", add := [Package.sampleHash 'd'], removeArch := some "aarch64" },
    .gc { keep := 1, cutoff := 9 }]

/-- The head's database lists the old bash, which has neither row nor object. -/
theorem listing_late_put :
    ¬ ∀ (press : Press) (packages : List Package) (bucket : String → Option Blob),
      (∀ p ∈ packages, p.indexed = true) →
      (∀ p ∈ packages, p.ghost = false → (bucket p.key).isSome = true) → ∀ pool : Pool,
      Runs (Pool.next press) Orderly (Pool.fresh packages bucket) pool →
      ∀ ring, ∀ head ∈ pool.world.db.ringHead ring, ∀ b ∈ pool.world.db.artifacts,
        b.releaseId = head.id → b.kind = .db → ∀ blob ∈ pool.world.db.bucket b.r2Key,
        pool.world.db.Reaches head.seq blob → ∀ id ∈ blob.lists,
        ∃ p ∈ pool.world.db.packages, p.id = id ∧
          (p.ghost = false → (pool.world.db.bucket p.key).isSome = true) := by
  intro law
  have reached : Runs (Pool.next plainPress) Orderly (Pool.fresh listedIndex listedBucket) _ :=
    Runs.start.steps overwrittenRun (by decide)
  have listed := law plainPress listedIndex listedBucket (by decide) (by decide) _ reached
    .edge
  exact absurd listed (by decide)

/-- Two versions of a package of one source, and two packages of another. -/
def droppedIndex : List Package :=
  [.sample 1 'a' "core" "nano", .sample 2 'b' "extra" "bash", .sample 3 'c' "extra" "curl",
    .sample 4 'd' "core" "nano" "1.1-1"]

def droppedBucket (key : String) : Option Blob :=
  if droppedIndex.any (·.key == key) then some ⟨1, ∅, none⟩ else none

/-- Of extra, only the twenty-third release's database is ever put.  The twenty-fifth, a
checkpoint, has no package of extra left: the end of its render drops its row of it, and as core
was put none of its rows waits.  The twenty-sixth still awaits extra, and GC protects from the
twenty-fifth on. -/
def droppedRun : List Act :=
  List.replicate 23 (.create { ring := "edge", add := [Package.sampleHash 'a', Package.sampleHash 'b',
    Package.sampleHash 'c'] }) ++
  [.start 23 .x86_64, .put 0 "core", .put 0 "extra", .rendered 0,
    .create { ring := "edge", remove := ["bash"] }, .create { ring := "edge", remove := ["curl"] },
    .start 25 .x86_64, .create { ring := "edge", add := [Package.sampleHash 'd'] }, .put 1 "core",
    .rendered 1, .gc { keep := 1, cutoff := 9 }]

/-- Every put of the run is timely; the head's database of extra lists the bash that is gone. -/
theorem listing_dropped_row :
    ∃ pool, Runs (Pool.next plainPress) TimelyPuts (Pool.fresh droppedIndex droppedBucket) pool ∧
      ¬ ∀ ring, ∀ head ∈ pool.world.db.ringHead ring, ∀ b ∈ pool.world.db.artifacts,
        b.releaseId = head.id → b.kind = .db → ∀ blob ∈ pool.world.db.bucket b.r2Key,
        pool.world.db.Reaches head.seq blob → ∀ id ∈ blob.lists,
        ∃ p ∈ pool.world.db.packages, p.id = id ∧
          (p.ghost = false → (pool.world.db.bucket p.key).isSome = true) := by
  have reached : Runs (Pool.next plainPress) TimelyPuts (Pool.fresh droppedIndex droppedBucket) _ :=
    Runs.start.steps droppedRun (by decide +kernel)
  refine ⟨_, reached, ?_⟩
  intro listed
  exact absurd (listed .edge) (by decide +kernel)

end OmarchyPool
