/-
# OmarchyPool.Backed -- the bytes a head serves are covered by what its ring's releases select

A database lives at one key whatever release it was rendered for, so what a row serves is not
the row's to say.  `Backed` says it of the rows a ring's head has, and of those its next release
would carry: every release of the ring awaits a render of that database, or what is stored
there is part of what it or a newer release selects.  A release none of whose rows awaits a
render therefore bounds from below what the head's bytes can list, which is what retention
counts on.

A batch keeps it for free: what a new release carries, it awaits, unless the selection is the
head's.  A put keeps it when it is timely, the end of a render when it drops no database that
goes on being named (`Backed.put`, `Backed.rendered`).
-/
import OmarchyPool.Protection
import OmarchyPool.Waits

namespace OmarchyPool

open Lib

set_option autoImplicit false

/-! ## The invariant -/

namespace Db

/-- The release has a row of the database, and awaits a render of it. -/
def AwaitsDatabase (db : Db) (release : ReleaseId) (repo : String) (arch : Arch) : Prop :=
  db.databaseRows release repo arch ≠ [] ∧ ∀ b ∈ db.databaseRows release repo arch, b.awaits.isSome = true

instance (db : Db) (release : ReleaseId) (repo : String) (arch : Arch) :
    Decidable (db.AwaitsDatabase release repo arch) := by
  unfold AwaitsDatabase
  infer_instance

theorem awaitsDatabase_iff {db : Db} {release : ReleaseId} {repo : String} {arch : Arch} :
    db.AwaitsDatabase release repo arch ↔
      (∃ b ∈ db.artifacts, b.releaseId = release ∧ b.arch = arch ∧ b.kind = .db ∧ b.repo = repo) ∧
        ∀ b ∈ db.artifacts, b.releaseId = release → b.arch = arch → b.kind = .db → b.repo = repo →
          b.awaits.isSome = true := by
  unfold AwaitsDatabase
  rw [show db.databaseRows release repo arch ≠ [] ↔ ∃ b, b ∈ db.databaseRows release repo arch from
    ⟨List.exists_mem_of_ne_nil _, fun ⟨_, member⟩ => List.ne_nil_of_mem member⟩]
  simp only [mem_databaseRows, and_imp]

/-- The end of a release's render of an architecture drops the row: the release has it and it was
not put, or it awaits the render, or one that another row of the release awaits. -/
def drops (db : Db) (release : ReleaseId) (arch : Arch) (b : Artifact) : Bool :=
  b.arch == arch && b.awaits.any fun v =>
    b.releaseId == release || v == release || (db.waited release arch).contains v

/-- A database whose row is dropped is named by no release from the row's own on, or what is
stored there is the row's release's or a newer one's. -/
def DropsUnnamed (db : Db) (release : ReleaseId) (arch : Arch) : Prop :=
  ∀ r ∈ db.releases, ∀ b ∈ db.artifactsOf r.id arch, db.drops release arch b = true → b.kind = .db →
    (∀ t ∈ db.ofRing r.ring, r.seq ≤ t.seq → ∀ c ∈ db.databaseRows t.id b.repo arch,
      db.drops release arch c = true) ∨
    ∀ blob ∈ db.bucket b.r2Key, ∃ q ∈ db.ofRing r.ring, blob.renderedFor = some q.id ∧ r.seq ≤ q.seq

instance (db : Db) (release : ReleaseId) (arch : Arch) : Decidable (db.DropsUnnamed release arch) := by
  unfold DropsUnnamed
  infer_instance

/-- A release loses its last row of the architecture only if it holds no package of it. -/
def StripsBare (db : Db) (release : ReleaseId) (arch : Arch) : Prop :=
  ∀ r ∈ db.releases, ∀ b ∈ db.artifactsOf r.id arch, db.drops release arch b = true →
    (∃ c ∈ db.artifactsOf r.id arch, db.drops release arch c = false) ∨ db.bare r.id arch = true

instance (db : Db) (release : ReleaseId) (arch : Arch) : Decidable (db.StripsBare release arch) := by
  unfold StripsBare
  infer_instance

/-- A database the head serves, or one its ring's next release would carry. -/
def Names (db : Db) (head : ReleaseId) (b : Artifact) : Prop :=
  b ∈ db.artifacts ∧ b.kind = .db ∧ db.nearest head b.arch = some b.releaseId

end Db

/-- The ids are part of what a release of the ring selects, one of this seq or a newer one. -/
def World.Selects (w : World) (ring : Ring) (seq : Nat) (ids : Finset PackageId) : Prop :=
  ∃ u ∈ w.db.ofRing ring, seq ≤ u.seq ∧ ids ⊆ w.selection u.id

structure Backed (index : List Package) (readers : List Release) (w : World) : Prop
    extends Waits index readers w where
  /-- The bytes at a row's key are those of some release of its ring, and list its slice. -/
  bytes : ∀ b ∈ w.db.artifacts, b.kind = .db → ∀ blob ∈ w.db.bucket b.r2Key, ∃ source,
    ∃ q ∈ w.db.releases, b.repo = repoName source q.ring ∧ blob.renderedFor = some q.id ∧
      blob.lists = sliceOf index (w.selection q.id) source b.arch
  /-- A release that holds no package of an architecture, its slices say, selects none the
  index has. -/
  bare : ∀ id arch, w.db.bare id arch = true → ∀ p ∈ w.db.packages, p.id ∈ w.selection id →
    p.repoArch ≠ arch
  backed : ∀ ring head, w.db.ringHeads ring = some head → ∀ b, w.db.Names head b →
    ∀ blob ∈ w.db.bucket b.r2Key, ∀ r ∈ w.db.ofRing ring,
      w.db.AwaitsDatabase r.id b.repo b.arch ∨ w.Selects ring r.seq blob.lists

theorem World.Selects.of_same {w w' : World} (same : w.db.SameReleases w'.db)
    (selection : w'.selection = w.selection) {ring : Ring} {seq : Nat} {ids : Finset PackageId}
    (selects : w.Selects ring seq ids) : w'.Selects ring seq ids := by
  obtain ⟨u, member, later, inside⟩ := selects
  obtain ⟨u', member', eq⟩ := row_of_same same member
  exact ⟨u', member', by rwa [Release.seq_eq eq], by rwa [selection, Release.id_eq eq]⟩

theorem sliceOf_subset (index : List Package) (ids : Finset PackageId) (source : String) (arch : Arch) :
    sliceOf index ids source arch ⊆ ids := Finset.filter_subset _ _

/-- What a slice lists of another selection is of its packages of the architecture. -/
theorem sliceOf_subset_arch {index : List Package} {ids other : Finset PackageId} {source : String}
    {arch : Arch} (inside : sliceOf index ids source arch ⊆ other) :
    sliceOf index ids source arch ⊆ archSlice index other arch := by
  intro id listed
  refine Finset.mem_filter.mpr ⟨inside listed, ?_⟩
  obtain ⟨p, inIndex, is⟩ := List.any_eq_true.mp (Finset.mem_filter.mp listed).2
  simp only [Bool.and_eq_true] at is
  exact List.any_eq_true.mpr ⟨p, inIndex, by simp only [is.1.1, is.2, Bool.and_self]⟩

/-! ## Ancestors of releases that stay -/

theorem release?_of_same {db db' : Db} (same : db.SameReleases db') (id : ReleaseId) :
    (db'.release? id).map Release.fixed = (db.release? id).map Release.fixed := by
  have byRows : ∀ rows : List Release, (rows.find? (·.id == id)).map Release.fixed =
      (rows.map Release.fixed).find? (·.1 == id) := by
    intro rows
    rw [List.find?_map]
    rfl
  unfold Db.release?
  rw [byRows, byRows, same.rows]

theorem ancestors_of_same {db db' : Db} (same : db.SameReleases db') (fuel : Nat) (id : ReleaseId) :
    db'.ancestors fuel id = db.ancestors fuel id := by
  induction fuel generalizing id with
  | zero => rfl
  | succ fuel ih =>
      have parents : (db'.release? id).bind (·.parentId) = (db.release? id).bind (·.parentId) := by
        have := congrArg (Option.bind · fun t => t.2.2.2.1) (release?_of_same same id)
        simpa [Option.bind_map, Function.comp_def, Release.fixed] using this
      simp only [Db.ancestors, parents, ih]

namespace Backed

variable {index : List Package} {readers : List Release} {w w' : World}

theorem fresh (packages : List Package) (bucket : String → Option Blob) :
    Backed index [] (World.fresh packages bucket) := by
  refine ⟨.fresh packages bucket, ?_, ?_, ?_⟩ <;> simp [World.fresh, Db.bare, Db.release?]

/-- Writes that leave the releases, the rows and the history, and put no object. -/
theorem quiet (backed : Backed index readers w) (same : w.db.SameReleases w'.db)
    (rows : w'.db.artifacts = w.db.artifacts) (selection : w'.selection = w.selection)
    (bucket : ∀ key blob, w'.db.bucket key = some blob → w.db.bucket key = some blob)
    (more : ∀ id arch, w.db.bare id arch = true → w'.db.bare id arch = true)
    (bare : ∀ id arch, w'.db.bare id arch = true → ∀ p ∈ w'.db.packages, p.id ∈ w'.selection id →
      p.repoArch ≠ arch) : Backed index readers w' where
  toWaits := backed.toWaits.fewer same (fun b member => by rwa [rows] at member) selection
  bytes := by
    intro b member isDb blob held
    rw [rows] at member
    obtain ⟨source, q, qMember, repo, isFor, lists⟩ := backed.bytes b member isDb blob (bucket _ _ held)
    obtain ⟨q', member', eq⟩ := same.exists_fixed qMember
    exact ⟨source, q', member', by rw [repo, Release.ring_eq eq], by rw [isFor, Release.id_eq eq],
      by rw [lists, selection, Release.id_eq eq]⟩
  bare := bare
  backed := by
    rintro ring head isHead b ⟨member, isDb, near⟩ blob held r isOf
    rw [same.heads] at isHead
    rw [rows] at member
    have names : w.db.Names head b := by
      refine ⟨member, isDb, nearest_of_more member (ancestors_of_same same 12 head) ?_ near⟩
      intro x _ stops
      rw [Db.stops_iff, rows]
      exact (Db.stops_iff.mp stops).imp_right (more x b.arch)
    obtain ⟨r₀, member₀, eq⟩ := row_of_same same.symm isOf
    unfold Db.AwaitsDatabase Db.databaseRows Db.artifactsOf
    rw [rows, ← Release.id_eq eq, ← Release.seq_eq eq]
    exact (backed.backed ring head isHead b names blob (bucket _ _ held) r₀ member₀).imp_right
      (·.of_same same selection)

/-! ## A new release -/

/-- The bytes a head serves, when it does not await them, are of its own selection. -/
theorem of_head (backed : Backed index readers w) (ordered : w.db.Ordered) {ring : Ring} {r : Release}
    (isOf : r ∈ w.db.ofRing ring) (isHead : w.db.ringHeads ring = some r.id) {b : Artifact}
    (names : w.db.Names r.id b) {blob : Blob} (held : blob ∈ w.db.bucket b.r2Key)
    (settled : ¬ w.db.AwaitsDatabase r.id b.repo b.arch) : blob.lists ⊆ w.selection r.id := by
  obtain ⟨u, member, later, inside⟩ :=
    (backed.backed ring r.id isHead b names blob held r isOf).resolve_left settled
  obtain ⟨h, hIn, sameId, headSeq⟩ := ordered.head_row isHead
  obtain rfl := ordered.eq_of_id (Db.mem_ofRing.mp hIn).1 (Db.mem_ofRing.mp isOf).1 sameId
  have bounds := ordered.seq_le member
  rwa [ordered.seq_injective member isOf (by omega)] at inside

section Create

variable {floor : Ring → Nat} (backed : Backed index readers w) (inv : Exact floor w) {b : CreateBatch}
  (parent : b.parent = w.db.ringHeads b.ring)
include backed inv parent

omit backed in
/-- A head that stays one names what it named. -/
theorem names_create_old {ring : Ring} {head : ReleaseId} (isHead : w.db.ringHeads ring = some head)
    {row : Artifact} (names : (w.db.applyRelease b).Names head row) : w.db.Names head row := by
  obtain ⟨member, isDb, near⟩ := names
  have headOf := isOf_head inv.toRooted isHead
  rw [nearest_later inv.toRooted _ (Db.applyRelease_releases ..) ?_ (headOf.imp fun _ is => ⟨is.1, is.2.1⟩)] at near
  · obtain ⟨q, qMember, sameId, -⟩ := isOf_ancestors inv.toRooted 12 headOf (List.mem_of_find?_eq_some near)
    refine ⟨(applyRelease_older inv.toRooted parent ?_).mp member, isDb, near⟩
    rw [← sameId]
    exact Nat.ne_of_lt (inv.ordered.fresh q qMember)
  · intro q qMember c whose
    refine applyRelease_older inv.toRooted parent ?_
    rw [whose]
    exact Nat.ne_of_lt (inv.ordered.fresh q qMember)

/-- A new head names what it carries, and so what the head before it named. -/
theorem names_create_new {row : Artifact} (names : (w.db.applyRelease b).Names w.db.nextRelease row) :
    ∃ head, w.db.ringHeads b.ring = some head ∧ ∃ c, w.db.Names head c ∧
      Carries w.db.nextRelease head b.unchanged c row := by
  obtain ⟨member, isDb, near⟩ := names
  rcases applyRelease_rows inv.toRooted parent member with old | ⟨head, isHead, c, inTable, nearC, carries⟩
  · obtain ⟨-, -, -, ⟨r, rMember, sameId, -⟩, -⟩ := backed.keyed row old isDb
    refine absurd near (nearest_new inv.toRooted parent old ?_)
    rw [← sameId]
    exact Nat.ne_of_lt (inv.ordered.fresh r rMember)
  · exact ⟨head, isHead, c, ⟨inTable, carries.same.2.2.2.1.symm.trans isDb, nearC⟩, carries⟩

/-- Where the new release has a row of a database it awaits it, or the row is the head's own. -/
theorem awaits_create {head : ReleaseId} (isHead : w.db.ringHeads b.ring = some head) {c row : Artifact}
    (names : w.db.Names head c) (member : row ∈ (w.db.applyRelease b).artifacts)
    (carries : Carries w.db.nextRelease head b.unchanged c row) :
    (w.db.applyRelease b).AwaitsDatabase w.db.nextRelease row.repo row.arch ∨
      c.arch ∈ b.unchanged ∧ c.releaseId = head ∧ ¬ w.db.AwaitsDatabase head c.repo c.arch := by
  obtain ⟨inTable, isDb, near⟩ := names
  obtain ⟨whose, repo, arch, kind, -⟩ := carries.same
  by_cases awaits : c.arch ∈ b.unchanged ∧ c.releaseId = head ∧ ¬ w.db.AwaitsDatabase head c.repo c.arch
  · exact .inr awaits
  refine .inl (Db.awaitsDatabase_iff.mpr ⟨⟨row, member, whose, rfl, kind.trans isDb, rfl⟩, ?_⟩)
  intro d dMember whoseD archD kindD repoD
  rcases applyRelease_rows inv.toRooted parent dMember with old | ⟨head', isHead', e, inTable', nearE, carriesE⟩
  · obtain ⟨-, -, -, ⟨r, rMember, sameId, -⟩, -⟩ := backed.keyed d old kindD
    exact absurd (sameId.trans whoseD) (Nat.ne_of_lt (inv.ordered.fresh r rMember))
  obtain rfl := Option.some.inj (isHead.symm.trans isHead')
  obtain ⟨-, repoE, archE, kindE, -⟩ := carriesE.same
  have sameArch : e.arch = c.arch := archE.symm.trans (archD.trans arch)
  cases carriesE with
  | changed _ => rfl
  | older _ => rfl
  | kept isUnchanged fromHead =>
      rw [sameArch] at isUnchanged nearE
      have own : c.releaseId = head := (Option.some.inj (near.symm.trans nearE)).trans fromHead
      have waiting := not_not.mp fun settled => awaits ⟨isUnchanged, own, settled⟩
      exact (Db.awaitsDatabase_iff.mp waiting).2 e inTable' fromHead sameArch kindD (repoD.trans repo)

/-- The batch of a request: nothing is asked of it. -/
theorem create
    (unchanged : ∀ arch ∈ b.unchanged,
      archSlice index (b.target w.db) arch = archSlice index (w.db.ringPackages b.ring) arch) :
    Backed index readers (w.commit (w.db.applyRelease b)) := by
  have ordered := inv.ordered
  obtain ⟨kept, made⟩ := Waits.selection_create inv b
  have stays : ∀ {ring seq ids}, w.Selects ring seq ids →
      (w.commit (w.db.applyRelease b)).Selects ring seq ids := by
    rintro ring seq ids ⟨u, member, later, inside⟩
    refine ⟨u, ?_, later, by rwa [kept u (Db.mem_ofRing.mp member).1]⟩
    rw [World.commit_db, Db.applyRelease_ofRing]
    split
    · exact List.mem_append_left _ member
    · exact member
  have awaitsOld : ∀ r ∈ w.db.releases, ∀ {repo arch}, w.db.AwaitsDatabase r.id repo arch →
      (w.db.applyRelease b).AwaitsDatabase r.id repo arch := by
    intro r member repo arch awaits
    have rows : ∀ c : Artifact, c.releaseId = r.id →
        (c ∈ (w.db.applyRelease b).artifacts ↔ c ∈ w.db.artifacts) := by
      intro c whose
      refine applyRelease_older inv.toRooted parent ?_
      rw [whose]
      exact Nat.ne_of_lt (ordered.fresh r member)
    obtain ⟨⟨c, inTable, whose, is⟩, all⟩ := Db.awaitsDatabase_iff.mp awaits
    exact Db.awaitsDatabase_iff.mpr ⟨⟨c, (rows c whose).mpr inTable, whose, is⟩,
      fun d dMember whoseD => all d ((rows d whoseD).mp dMember) whoseD⟩
  refine ⟨backed.toWaits.create inv parent unchanged, ?_, ?_, ?_⟩
  · intro row member isDb blob held
    rw [World.commit_db, Db.applyRelease_bucket] at held
    have before : ∃ c ∈ w.db.artifacts, c.kind = .db ∧ c.repo = row.repo ∧ c.arch = row.arch ∧
        c.r2Key = row.r2Key := by
      rcases applyRelease_rows inv.toRooted parent member with old | ⟨_, -, c, inTable, -, carries⟩
      · exact ⟨row, old, isDb, rfl, rfl, rfl⟩
      · obtain ⟨-, repo, arch, kind, key⟩ := carries.same
        exact ⟨c, inTable, kind.symm.trans isDb, repo.symm, arch.symm, key.symm⟩
    obtain ⟨c, inTable, kind, repo, arch, key⟩ := before
    obtain ⟨source, q, qMember, isRepo, isFor, lists⟩ := backed.bytes c inTable kind blob (by rwa [key])
    exact ⟨source, q, by simp [qMember], by rw [← repo, isRepo], isFor, by rw [kept q qMember, ← arch, lists]⟩
  · intro id arch isBare
    rw [World.commit_db, Db.bare, ordered.applyRelease_release?] at isBare
    rw [World.commit_db, Db.applyRelease_packages]
    by_cases here : id = w.db.nextRelease
    · rw [if_pos here] at isBare
      cases isBare
    · rw [if_neg here] at isBare
      rw [World.commit_selection_applyRelease ordered, Function.update_of_ne here]
      exact backed.bare id arch isBare
  · intro ring head isHead row names blob held r isOf
    rw [World.commit_db, Db.applyRelease_ringHeads] at isHead
    rw [World.commit_db, Db.applyRelease_bucket] at held
    rw [World.commit_db, Db.applyRelease_ofRing] at isOf
    by_cases here : b.ring = ring
    · subst here
      rw [Function.update_self, Option.some.injEq] at isHead
      subst isHead
      obtain ⟨head, isHead, c, namesC, carries⟩ := backed.names_create_new inv parent names
      obtain ⟨-, repo, arch, -, key⟩ := carries.same
      rw [key] at held
      rw [if_pos rfl, List.mem_append, List.mem_singleton] at isOf
      rcases isOf with old | rfl
      · rw [repo, arch]
        exact (backed.backed b.ring head isHead c namesC blob held r old).imp
          (awaitsOld r (Db.mem_ofRing.mp old).1) stays
      · -- The new release: its row waits, or the bytes are of what the head before it selects.
        refine (backed.awaits_create inv parent isHead namesC names.1 carries).imp_right ?_
        rintro ⟨isUnchanged, -, settled⟩
        obtain ⟨h, hIn, rfl, -⟩ := ordered.head_row isHead
        have inside := backed.of_head ordered hIn isHead namesC held settled
        obtain ⟨source, q, -, -, -, lists⟩ := backed.bytes c namesC.1 namesC.2.1 blob held
        refine ⟨b.row w.db.nextRelease, ?_, Nat.le_refl _, ?_⟩
        · rw [World.commit_db, Db.applyRelease_ofRing, if_pos rfl]
          simp
        · show blob.lists ⊆ (w.commit (w.db.applyRelease b)).selection w.db.nextRelease
          rw [made]
          rw [lists] at inside ⊢
          have sliced := sliceOf_subset_arch inside
          rw [Waits.sameSlice inv unchanged isHead isUnchanged] at sliced
          exact sliced.trans (Finset.filter_subset _ _)
    · rw [Function.update_of_ne (Ne.symm here)] at isHead
      rw [if_neg here] at isOf
      exact (backed.backed ring head isHead row (names_create_old inv parent isHead names) blob held r
        isOf).imp (awaitsOld r (Db.mem_ofRing.mp isOf).1) stays

end Create

/-! ## A put -/

section Put

variable {floor : Ring → Nat} (backed : Backed index readers w) (inv : Exact floor w) {release : Release}
  (known : Known w release) {source : String} {arch : Arch} {bytes : Blob}
  (plain : '/' ∉ source.toList)
  (posted : Posted w w' (databaseRow release.id source release.ring arch bytes.size) bytes)
include posted

/-- A row keeps its place, whatever becomes of it. -/
theorem stays_put {c : Artifact} (inTable : c ∈ w.db.artifacts) : ∃ d ∈ w'.db.artifacts,
    d.releaseId = c.releaseId ∧ d.repo = c.repo ∧ d.arch = c.arch ∧ d.kind = c.kind :=
  Db.hasArtifact_eq_true.mp (posted.posting.keys c
    (Db.hasArtifact_eq_true.mpr ⟨c, inTable, rfl, rfl, rfl, rfl⟩))

include backed inv known in
/-- A newer release that awaits the database still does after the put, unless it has the same slice. -/
theorem awaits_put {r : Release} (isOf : r ∈ w.db.ofRing release.ring) (later : release.seq < r.seq)
    (differs : sliceOf index (w.selection r.id) source arch ≠ sliceOf index (w.selection release.id) source arch)
    (awaits : w.db.AwaitsDatabase r.id (repoName source release.ring) arch) :
    w'.db.AwaitsDatabase r.id (repoName source release.ring) arch := by
  obtain ⟨⟨c, inTable, whose, isArch, isDb, repo⟩, all⟩ := Db.awaitsDatabase_iff.mp awaits
  obtain ⟨d, member, sameRelease, sameRepo, sameArch, sameKind⟩ := stays_put posted inTable
  refine Db.awaitsDatabase_iff.mpr ⟨⟨d, member, sameRelease.trans whose, sameArch.trans isArch,
    sameKind.trans isDb, sameRepo.trans repo⟩, ?_⟩
  intro e eMember whoseE archE kindE repoE
  rcases posted.posting.rows e eMember with old | ⟨-, new⟩
  · exact all e old whoseE archE kindE repoE
  -- It has become current: the put is of this release, gave it the row, or is of its slice.
  cases (new kindE).claims with
  | own is =>
      obtain ⟨q, qMember, eq⟩ := known
      have sameId : q.id = r.id := (Release.id_eq eq).trans (is.symm.trans whoseE)
      have := Release.seq_eq eq
      rw [inv.ordered.eq_of_id qMember (Db.mem_ofRing.mp isOf).1 sameId] at this
      omega
  | kin _ free =>
      rw [Bool.eq_false_iff] at free
      exact (free (Db.hasArtifact_eq_true.mpr
        ⟨c, inTable, whose.trans whoseE.symm, repo, isArch, isDb⟩)).elim
  | waited x v inTable' whoseX _ archX kindX awaitsX why =>
      have same := backed.toWaits.awaited_slice inTable' archX kindX awaitsX why
      rw [whoseX, whoseE] at same
      exact absurd (sliceOf_congr same source) differs

include backed inv known plain in
/-- The put of a release's database that no newer release of its ring is past. -/
theorem put (isFor : bytes.renderedFor = some release.id)
    (lists : bytes.lists = sliceOf index (w.selection release.id) source arch)
    (timely : ∀ r ∈ w.db.ofRing release.ring, release.seq < r.seq →
      sliceOf index (w.selection r.id) source arch = sliceOf index (w.selection release.id) source arch ∨
        w.db.AwaitsDatabase r.id (repoName source release.ring) arch) : Backed index readers w' := by
  have waits' := backed.toWaits.put inv known plain posted
  have rest := posted.shelved.rest
  have same := posted.shelved.same
  have selection := posted.shelved.selection
  have releases : w'.db.releases = w.db.releases := by rw [rest]
  have packages : w'.db.packages = w.db.packages := by rw [rest]
  have bareSame := posted.shelved.bare
  have ⟨q, qMember, eq⟩ := known
  refine ⟨waits', ?_, ?_, ?_⟩
  · intro b member isDb blob held
    rw [releases, selection]
    rcases waits'.put_database plain posted member isDb with ⟨isRepo, isArch, stored⟩ | ⟨old, -, stored⟩
    · rw [stored, Option.mem_some_iff] at held
      subst held
      exact ⟨source, q, qMember, by rw [isRepo, Release.ring_eq eq], by rw [isFor, Release.id_eq eq],
        by rw [lists, isArch, Release.id_eq eq]⟩
    · rw [stored] at held
      exact backed.bytes b old isDb blob held
  · rw [bareSame, packages, selection]
    exact backed.bare
  · rintro ring head isHead b ⟨member, isDb, near⟩ blob held r isOf
    rw [same.heads] at isHead
    rw [Db.ofRing, releases] at isOf
    have ancestors : w'.db.ancestors 12 head = w.db.ancestors 12 head := ancestors_of_same same 12 head
    rcases waits'.put_database plain posted member isDb with ⟨isRepo, isArch, stored⟩ | ⟨old, other, stored⟩
    · rw [stored, Option.mem_some_iff] at held
      subst held
      -- The database is one of the ring's, so the put is of a release of the ring.
      have sameRing : release.ring = ring := by
        obtain ⟨source', ring', -, is, repo, -⟩ := waits'.keyed b member isDb
        rw [Db.IsOf, releases] at is
        have above := List.mem_of_find?_eq_some near
        rw [ancestors] at above
        rw [isOf_unique inv.toRooted is (isOf_ancestors inv.toRooted 12 (isOf_head inv.toRooted isHead) above)] at repo
        exact (repoName_injective (isRepo.symm.trans repo)).2
      subst sameRing
      rw [isRepo, isArch]
      by_cases slice : release.seq < r.seq ∧
          sliceOf index (w.selection r.id) source arch ≠ sliceOf index (w.selection release.id) source arch
      · exact .inl (backed.awaits_put inv known posted isOf slice.1 slice.2
          ((timely r isOf slice.1).resolve_left slice.2))
      · refine .inr (World.Selects.of_same same selection ?_)
        rw [lists]
        rcases Nat.lt_or_ge release.seq r.seq with later | earlier
        · have alike := not_not.mp fun differs => slice ⟨later, differs⟩
          rw [← alike]
          exact ⟨r, isOf, Nat.le_refl _, sliceOf_subset ..⟩
        · refine ⟨q, Db.mem_ofRing.mpr ⟨qMember, Release.ring_eq eq⟩, by rwa [Release.seq_eq eq], ?_⟩
          rw [Release.id_eq eq]
          exact sliceOf_subset ..
    · rw [stored] at held
      have names : w.db.Names head b := by
        refine ⟨old, isDb, nearest_of_more old ancestors ?_ near⟩
        intro x _ stops
        rw [Db.stops_iff, bareSame]
        refine (Db.stops_iff.mp stops).imp_left ?_
        rintro ⟨c, inTable, whose, isArch⟩
        obtain ⟨d, dMember, sameRelease, -, sameArch, -⟩ := stays_put posted inTable
        exact ⟨d, dMember, sameRelease.trans whose, sameArch.trans isArch⟩
      refine (backed.backed ring head isHead b names blob held r isOf).imp ?_ (·.of_same same selection)
      intro awaits
      obtain ⟨⟨c, inTable, whose, isArch, kind, repo⟩, all⟩ := Db.awaitsDatabase_iff.mp awaits
      obtain ⟨d, dMember, sameRelease, sameRepo, sameArch, sameKind⟩ := stays_put posted inTable
      refine Db.awaitsDatabase_iff.mpr ⟨⟨d, dMember, sameRelease.trans whose, sameArch.trans isArch,
        sameKind.trans kind, sameRepo.trans repo⟩, ?_⟩
      intro e eMember whoseE archE kindE repoE
      rcases waits'.put_database plain posted eMember kindE with ⟨isRepo, isArch', -⟩ | ⟨oldE, -, -⟩
      · exact absurd (archE.symm.trans isArch') (other (repoE.symm.trans isRepo))
      · exact all e oldE whoseE archE kindE repoE

end Put

end Backed

/-! ## The end of a render -/

theorem mem_dropAwaiting {ids : List ReleaseId} {arch : Arch} {db : Db} {b : Artifact} :
    b ∈ (ids.foldl (fun db id => db.dropAwaiting id arch) db).artifacts ↔
      b ∈ db.artifacts ∧ ∀ v ∈ ids, ¬ (b.awaits = some v ∧ b.arch = arch) := by
  induction ids generalizing db with
  | nil => simp
  | cons id rest ih =>
      rw [List.foldl_cons, ih]
      simp only [Db.dropAwaiting, List.mem_filter, and_assoc, List.forall_mem_cons]
      refine and_congr_right fun _ => and_congr_left fun _ => ?_
      simpa using imp_iff_not_or.symm

theorem mem_rendered {id : ReleaseId} {arch : Arch} {w : World} {b : Artifact} :
    b ∈ ((handleRendered id arch.name).run w).2.db.artifacts ↔
      b ∈ w.db.artifacts ∧ w.db.drops id arch b = false := by
  have after : ((handleRendered id arch.name).run w).2.db.artifacts =
      ((id :: (w.db.waited id arch).filter (· ≠ id)).foldl (fun db v => db.dropAwaiting v arch)
        (w.db.dropCarried id arch)).artifacts := by
    unfold handleRendered
    rw [isRepoArch_name]
    rfl
  rw [after, mem_dropAwaiting]
  simp only [Db.dropCarried, List.mem_filter, and_assoc]
  refine and_congr_right fun _ => ?_
  unfold Db.drops
  cases awaits : b.awaits with
  | none => simp
  | some v =>
      by_cases isArch : b.arch = arch
      · by_cases own : b.releaseId = id
        · simp [isArch, own]
        by_cases isId : v = id
        · simp [isArch, isId]
        · have others : (∀ a ∈ w.db.waited id arch, ¬a = id → ¬v = a) ↔ v ∉ w.db.waited id arch :=
            ⟨fun all waits => all v waits isId rfl, fun free a waits _ same => free (same ▸ waits)⟩
          simpa [isArch, own, isId] using others
      · simp [isArch]

theorem arch_of_drops {db : Db} {id : ReleaseId} {arch : Arch} {b : Artifact} (drops : db.drops id arch b = true) :
    b.arch = arch := by
  simp only [Db.drops, Bool.and_eq_true, beq_iff_eq] at drops
  exact drops.1

namespace Backed

section Rendered

variable {index : List Package} {readers : List Release} {w : World} {floor : Ring → Nat}
  (backed : Backed index readers w) (inv : Exact floor w) {id : ReleaseId} {arch : Arch}
include backed inv

/-- A row that goes leaves its database to a newer release, or to nobody. -/
theorem selects_of_dropped (unnamed : w.db.DropsUnnamed id arch) {ring : Ring} {head : ReleaseId}
    (isHead : w.db.ringHeads ring = some head) {b : Artifact} (names : w.db.Names head b)
    (stays : w.db.drops id arch b = false) {blob : Blob} (held : blob ∈ w.db.bucket b.r2Key) {r : Release}
    (isOf : r ∈ w.db.ofRing ring) {c : Artifact} (inTable : c ∈ w.db.artifacts) (whose : c.releaseId = r.id)
    (sameArch : c.arch = b.arch) (kind : c.kind = .db) (sameRepo : c.repo = b.repo)
    (goes : w.db.drops id arch c = true) : w.Selects ring r.seq blob.lists := by
  have ordered := inv.ordered
  obtain ⟨member, isDb, near⟩ := names
  obtain ⟨rMember, rRing⟩ := Db.mem_ofRing.mp isOf
  obtain ⟨h, hIn, rfl, headSeq⟩ := ordered.head_row isHead
  have hMember := (Db.mem_ofRing.mp hIn).1
  obtain ⟨t, tMember, isT, tRing⟩ :=
    isOf_ancestors inv.toRooted 12 (isOf_head inv.toRooted isHead) (List.mem_of_find?_eq_some near)
  have cArch := arch_of_drops goes
  rcases unnamed r rMember c (Db.mem_artifactsOf.mpr ⟨inTable, whose, cArch⟩) goes kind with none | newer
  · rcases Nat.lt_or_ge t.seq r.seq with before | after
    · -- The head has no row of the architecture, so what is stored is of its own selection.
      have bounds := ordered.seq_le isOf
      have settled : ¬ w.db.AwaitsDatabase h.id b.repo b.arch := by
        intro awaits
        obtain ⟨⟨d, dTable, whoseD, archD, -⟩, -⟩ := Db.awaitsDatabase_iff.mp awaits
        rcases nearest_self near with own | none
        · rw [ordered.eq_of_id tMember hMember (isT.trans own)] at before
          omega
        · exact none d dTable whoseD archD
      have inside := backed.of_head ordered hIn isHead ⟨member, isDb, near⟩ held settled
      exact ⟨h, hIn, by omega, inside⟩
    · have dropped := none t (Db.mem_ofRing.mpr ⟨tMember, tRing.trans rRing.symm⟩) after b
        (Db.mem_databaseRows.mpr ⟨member, isT.symm, sameArch.symm.trans cArch, isDb, sameRepo.symm⟩)
      rw [stays] at dropped
      cases dropped
  · obtain ⟨source, ring', -, -, repo, key⟩ := backed.keyed b member isDb
    obtain ⟨source', ring'', -, -, repo', key'⟩ := backed.keyed c inTable kind
    have sameKey : c.r2Key = b.r2Key := by
      obtain ⟨rfl, -⟩ := repoName_injective (repo'.symm.trans (sameRepo.trans repo))
      rw [key', key, sameArch, sameRepo]
    obtain ⟨q, qIn, isFor, later⟩ := newer blob (by rwa [sameKey])
    obtain ⟨s, q', qMember', -, isFor', lists⟩ := backed.bytes b member isDb blob held
    have sameId : q'.id = q.id := Option.some.inj (isFor'.symm.trans isFor)
    rw [sameId] at lists
    refine ⟨q, by rwa [rRing] at qIn, later, ?_⟩
    rw [lists]
    exact sliceOf_subset ..

/-- The end of a render that drops no database anybody goes on naming. -/
theorem rendered (unnamed : w.db.DropsUnnamed id arch) (strips : w.db.StripsBare id arch) :
    Backed index readers ((handleRendered id arch.name).run w).2 := by
  have dropped := rendered_dropped id arch.name w
  have rows : ∀ b, b ∈ ((handleRendered id arch.name).run w).2.db.artifacts ↔ _ := fun b => mem_rendered
  generalize ((handleRendered id arch.name).run w).2 = w' at dropped rows
  have rest := dropped.shelved.rest
  have same := dropped.shelved.same
  have selection := dropped.shelved.selection
  have releases : w'.db.releases = w.db.releases := by rw [rest]
  have packages : w'.db.packages = w.db.packages := by rw [rest]
  have bareSame := dropped.shelved.bare
  refine ⟨backed.toWaits.fewer same dropped.rows selection, ?_, ?_, ?_⟩
  · intro b member isDb
    rw [dropped.bucket, releases, selection]
    exact backed.bytes b (dropped.rows b member) isDb
  · rw [bareSame, packages, selection]
    exact backed.bare
  · rintro ring head isHead b ⟨member, isDb, near⟩ blob held r isOf
    rw [same.heads] at isHead
    rw [Db.ofRing, releases] at isOf
    rw [dropped.bucket] at held
    obtain ⟨old, stays⟩ := (rows b).mp member
    have names : w.db.Names head b := by
      refine ⟨old, isDb, nearest_of_more old (ancestors_of_same same 12 head) ?_ near⟩
      intro x isAbove stops
      rw [Db.stops_iff, bareSame]
      rcases Db.stops_iff.mp stops with ⟨c, inTable, whose, isArch⟩ | isBare
      · cases goes : w.db.drops id arch c with
        | false => exact .inl ⟨c, (rows c).mpr ⟨inTable, goes⟩, whose, isArch⟩
        | true =>
            obtain ⟨y, yMember, rfl, -⟩ := isOf_ancestors inv.toRooted 12 (isOf_head inv.toRooted isHead) isAbove
            have sameArch : b.arch = arch := isArch.symm.trans (arch_of_drops goes)
            rw [sameArch]
            refine (strips y yMember c (Db.mem_artifactsOf.mpr ⟨inTable, whose, arch_of_drops goes⟩) goes).imp_left ?_
            rintro ⟨d, isRow, dStays⟩
            obtain ⟨dTable, whoseD, archD⟩ := Db.mem_artifactsOf.mp isRow
            exact ⟨d, (rows d).mpr ⟨dTable, dStays⟩, whoseD, archD⟩
      · exact .inr isBare
    rcases backed.backed ring head isHead b names blob held r isOf with awaits | selects
    · obtain ⟨⟨c, inTable, whose, isArch, kind, repo⟩, all⟩ := Db.awaitsDatabase_iff.mp awaits
      cases goes : w.db.drops id arch c with
      | false =>
          exact .inl (Db.awaitsDatabase_iff.mpr ⟨⟨c, (rows c).mpr ⟨inTable, goes⟩, whose, isArch, kind, repo⟩,
            fun d dMember => all d (dropped.rows d dMember)⟩)
      | true =>
          exact .inr ((backed.selects_of_dropped inv unnamed isHead names stays held isOf inTable whose isArch kind
            repo goes).of_same same selection)
    · exact .inr (selects.of_same same selection)

end Rendered

end Backed

end OmarchyPool
