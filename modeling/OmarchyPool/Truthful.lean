/-
# OmarchyPool.Truthful -- a head's current database lists what the head serves

A row of a head that awaits nothing is served as current: the bytes at its key are taken for
the head's own slice.  Every release of a ring puts its databases at the same keys, so a put
for an older release, late, leaves its bytes under the head's current row
(`truthful_late_put`).  Nothing else does it: rows are carried, inherited and made current only
where the selection is the same, as long as each put meets `Pool.Fits` -- the bytes are also the
head's slice, or the head's row of that database awaits a render, or the head has no such row
and the put gives it none (`truthful_of_fits`).
-/
import OmarchyPool.Waits

namespace OmarchyPool

open Lib

set_option autoImplicit false

/-! ## The condition -/

namespace Pool

/-- The put of a release's database finds the ring's head with the same slice, or waiting for
another render of it, or without that database and too far down to be given it. -/
def Fits (pool : Pool) (release : Release) (source : String) (arch : Arch) : Prop :=
  match pool.world.db.ringHeads release.ring with
  | none => True
  | some head =>
      pool.slice release.id source arch = pool.slice head source arch ∨
        (∀ b ∈ pool.world.db.databaseRows head (repoName source release.ring) arch, b.awaits.isSome = true) ∧
          (pool.world.db.databaseRows head (repoName source release.ring) arch = [] →
            head ∉ pool.world.db.kin release.id)

instance (pool : Pool) (release : Release) (source : String) (arch : Arch) :
    Decidable (pool.Fits release source arch) := by
  unfold Fits
  cases pool.world.db.ringHeads release.ring <;> infer_instance

end Pool

/-- No garbage collection, and every put fits. -/
def PutsFit (act : Act) (pool : Pool) : Prop :=
  match act with
  | .gc _ => False
  | .put i source => ∀ render ∈ pool.renders[i]?, pool.Fits render.release source render.arch
  | _ => True

instance (act : Act) (pool : Pool) : Decidable (PutsFit act pool) := by
  apply Act.casesOn (motive := fun act => Decidable (PutsFit act pool)) act <;> intros <;>
    (dsimp only [PutsFit]; infer_instance)

/-! ## The invariant -/

structure Truthful (index : List Package) (readers : List Release) (w : World) : Prop
    extends Waits index readers w where
  packages : w.db.packages = index
  distinct : (index.map (·.id)).Nodup
  truth : ∀ ring head, w.db.ringHeads ring = some head → ∀ b ∈ w.db.artifacts,
    b.releaseId = head → b.kind = .db → b.awaits = none → ∀ source, b.repo = repoName source ring →
    ∃ blob, w.db.bucket b.r2Key = some blob ∧
      blob.lists = sliceOf index (w.selection head) source b.arch

namespace Truthful

variable {index : List Package} {readers : List Release} {w w' : World}

theorem fresh (distinct : (index.map (·.id)).Nodup) (bucket : String → Option Blob) :
    Truthful index [] (World.fresh index bucket) := by
  refine ⟨.fresh index bucket, rfl, distinct, ?_⟩
  simp [World.fresh]

/-- Writes that leave the releases, the packages and the history, and drop rows at most. -/
theorem fewer (truthful : Truthful index readers w) (same : w.db.SameReleases w'.db)
    (packages : w'.db.packages = w.db.packages) (rows : ∀ b ∈ w'.db.artifacts, b ∈ w.db.artifacts)
    (bucket : w'.db.bucket = w.db.bucket) (selection : w'.selection = w.selection) :
    Truthful index readers w' where
  toWaits := truthful.toWaits.fewer same rows selection
  packages := packages.trans truthful.packages
  distinct := truthful.distinct
  truth := by
    intro ring head isHead b member whose isDb current source repo
    rw [same.heads] at isHead
    rw [bucket, selection]
    exact truthful.truth ring head isHead b (rows b member) whose isDb current source repo

theorem stable (truthful : Truthful index readers w) (later : Recounted w w') :
    Truthful index readers w' :=
  truthful.fewer later.releases later.packages (fun b member => by rwa [later.artifacts] at member)
    later.bucket later.selection

/-- The batch of a request: what is current in the new head was current in the old one, for an
architecture both have alike. -/
theorem create {floor : Ring → Nat} (truthful : Truthful index readers w) (inv : Exact floor w)
    {b : CreateBatch} (parent : b.parent = w.db.ringHeads b.ring)
    (unchanged : ∀ arch ∈ b.unchanged,
      archSlice index (b.target w.db) arch = archSlice index (w.db.ringPackages b.ring) arch) :
    Truthful index readers (w.commit (w.db.applyRelease b)) := by
  have ordered := inv.ordered
  obtain ⟨kept, made⟩ := Waits.selection_create inv b
  refine ⟨truthful.toWaits.create inv parent unchanged, by simpa using truthful.packages,
    truthful.distinct, ?_⟩
  intro ring head isHead row member whose isDb current source repo
  rw [World.commit_db, Db.applyRelease_ringHeads] at isHead
  rw [World.commit_db, Db.applyRelease_bucket]
  have split := applyRelease_rows inv.toRooted parent member
  by_cases here : ring = b.ring
  · subst here
    rw [Function.update_self, Option.some.injEq] at isHead
    subst isHead
    rcases split with old | ⟨head, isHead, c, inTable, near, carries⟩
    · obtain ⟨-, -, -, ⟨r, rMember, sameId, -⟩, -⟩ := truthful.keyed row old isDb
      exact absurd (sameId.trans whose) (Nat.ne_of_lt (ordered.fresh r rMember))
    · cases carries with
      | changed _ => cases current
      | older _ => cases current
      | kept isUnchanged fromHead =>
          obtain ⟨blob, stored, lists⟩ :=
            truthful.truth _ head isHead c inTable fromHead isDb current source repo
          refine ⟨blob, stored, ?_⟩
          rw [lists, made]
          exact sliceOf_congr (Waits.sameSlice inv unchanged isHead isUnchanged) source
  · rw [Function.update_of_ne here] at isHead
    obtain ⟨q, qMember, rfl, -⟩ := ordered.head_row isHead
    have qOld := (Db.mem_ofRing.mp qMember).1
    rcases split with old | ⟨_, _, _, _, _, carries⟩
    · rw [kept q qOld]
      exact truthful.truth ring q.id isHead row old whose isDb current source repo
    · exact absurd (carries.same.1.symm.trans whose).symm (Nat.ne_of_lt (ordered.fresh q qOld))

/-- The put of a release's database. -/
theorem put {floor : Ring → Nat} (truthful : Truthful index readers w) (inv : Exact floor w)
    {release : Release} (known : Known w release) {source : String} {arch : Arch} {bytes : Blob}
    (lists : bytes.lists = sliceOf index (w.selection release.id) source arch)
    (plain : '/' ∉ source.toList)
    (posted : Posted w w' (databaseRow release.id source release.ring arch bytes.size) bytes)
    (fits : ∀ head, w.db.ringHeads release.ring = some head →
      sliceOf index (w.selection release.id) source arch =
          sliceOf index (w.selection head) source arch ∨
        (∀ b ∈ w.db.artifacts, b.releaseId = head → b.repo = repoName source release.ring →
          b.arch = arch → b.kind = .db → b.awaits.isSome = true) ∧
        (w.db.hasArtifact (databaseRow head source release.ring arch bytes.size) = false →
          head ∉ w.db.kin release.id)) :
    Truthful index readers w' := by
  have waits' := truthful.toWaits.put inv known plain posted
  have rest := posted.shelved.rest
  refine ⟨waits', by rw [rest]; exact truthful.packages, truthful.distinct, ?_⟩
  intro ring head isHead b member whose isDb current source' repo
  have heads : w'.db.ringHeads = w.db.ringHeads := by rw [rest]
  rw [heads] at isHead
  rw [posted.shelved.selection]
  rcases waits'.put_database plain posted member isDb with ⟨isRepo, isArch, stored⟩ | ⟨old, -, stored⟩
  · obtain ⟨rfl, rfl⟩ := repoName_injective (repo.symm.trans isRepo)
    refine ⟨bytes, stored, ?_⟩
    rw [lists, isArch]
    -- The slice the bytes list is the head's, or the row has become current for a reason
    -- that makes it so.
    rcases fits head isHead with same | ⟨waiting, far⟩
    · exact same
    rcases posted.posting.rows b member with old | ⟨-, new⟩
    · have waits := waiting b old whose repo isArch isDb
      rw [current] at waits
      cases waits
    · cases (new isDb).claims with
      | own is => rw [← whose, is]; rfl
      | kin isKin free =>
          rw [whose] at isKin free
          exact absurd isKin (far free)
      | waited c v inTable whoseC _ archC kindC awaits why =>
          have same := truthful.toWaits.awaited_slice inTable archC kindC awaits why
          rw [whoseC, whose] at same
          exact sliceOf_congr same.symm source'
  · rw [stored]
    exact truthful.truth ring head isHead b old whose isDb current source' repo

end Truthful

/-! ## Every run -/

/-- The invariant of a pool. -/
def Pool.Sound (index : List Package) (pool : Pool) : Prop :=
  pool.index = index ∧
    OmarchyPool.Sound (fun _ => Truthful index (pool.renders.map (·.release))) pool.world

theorem truthful_create (index : List Package) (readers : List Release) (body : CreateRelease) :
    KeptByCreate (fun _ => Truthful index readers) body := by
  intro floor reads now hold inv truthful _ parent
  refine truthful.create inv parent fun arch isUnchanged => ?_
  have same := truthful.packages
  have distinct := truthful.distinct
  rw [← same] at distinct ⊢
  exact target_unchanged hold distinct isUnchanged

/-- `Fits`, of the rows themselves. -/
theorem fits_rows {pool : Pool} {release : Release} {source : String} {arch : Arch}
    (fits : pool.Fits release source arch) {size : Nat} (head : ReleaseId)
    (isHead : pool.world.db.ringHeads release.ring = some head) :
    sliceOf pool.index (pool.world.selection release.id) source arch =
        sliceOf pool.index (pool.world.selection head) source arch ∨
      (∀ b ∈ pool.world.db.artifacts, b.releaseId = head → b.repo = repoName source release.ring →
        b.arch = arch → b.kind = .db → b.awaits.isSome = true) ∧
      (pool.world.db.hasArtifact (databaseRow head source release.ring arch size) = false →
        head ∉ pool.world.db.kin release.id) := by
  rw [Pool.Fits, isHead] at fits
  refine fits.imp_right fun ⟨waiting, far⟩ => ⟨?_, ?_⟩
  · intro b member whose repo isArch isDb
    exact waiting b (Db.mem_databaseRows.mpr ⟨member, whose, isArch, isDb, repo⟩)
  · intro free
    refine far (List.eq_nil_iff_forall_not_mem.mpr fun b isRow => ?_)
    obtain ⟨member, whose, isArch, isDb, repo⟩ := Db.mem_databaseRows.mp isRow
    rw [Bool.eq_false_iff] at free
    exact free (Db.hasArtifact_eq_true.mpr ⟨b, member, whose, repo, isArch, isDb⟩)

theorem truthful_next (press : Press) {index : List Package} {pool : Pool} {act : Act}
    (fits : PutsFit act pool) (sound : pool.Sound index) : (pool.next press act).Sound index := by
  obtain ⟨isIndex, inner⟩ := sound
  refine ⟨(pool.next_index press act).trans isIndex, ?_⟩
  have ⟨floor, inv, truthful⟩ := inner
  cases act with
  | gc params => exact fits.elim
  | create body =>
      exact sound_create (.of_recounted fun _ _ _ later kept => kept.stable later)
        (truthful_create index _ body) inner
  | start id arch =>
      unfold Pool.next
      dsimp only
      cases read : pool.world.db.release? id with
      | none => exact inner
      | some release =>
          have waits := truthful.toWaits.start (List.mem_of_find?_eq_some read)
          refine ⟨floor, inv, { truthful with toWaits := ?_ }⟩
          rwa [List.map_append]
  | put i source =>
      unfold Pool.next
      dsimp only
      cases found : pool.renders[i]? with
      | none => exact inner
      | some render =>
          dsimp only
          split
          · rw [map_release_set found]
            have known := truthful.readers _ (List.mem_map_of_mem (List.mem_of_getElem? found))
            have fit := fits render (by rw [found]; rfl)
            obtain unchanged | ⟨plain, posted⟩ := render.put_run press pool source
            · rw [unchanged]
              exact inner
            · refine ⟨floor, inv.shelved posted.shelved, truthful.put inv known ?_ plain posted ?_⟩
              · rw [← isIndex]
                rfl
              · rw [← isIndex]
                exact fits_rows fit
          · exact inner
  | rendered i =>
      unfold Pool.next
      dsimp only
      cases found : pool.renders[i]? with
      | none => exact inner
      | some render =>
          dsimp only
          split
          · have dropped := rendered_dropped render.release.id render.arch.name pool.world
            refine ⟨floor, inv.shelved dropped.shelved, truthful.fewer dropped.shelved.same ?_
              dropped.rows dropped.bucket dropped.shelved.selection⟩
            rw [dropped.shelved.rest]
          · exact inner

/-- Releases made, databases put and renders ended in any order, each put where it fits: every
current database of a ring's head was rendered from a slice equal to the head's own. -/
theorem truthful_of_fits (press : Press) {index : List Package} {bucket : String → Option Blob}
    (distinct : (index.map (·.id)).Nodup) {pool : Pool}
    (reached : Runs (Pool.next press) PutsFit (Pool.fresh index bucket) pool) :
    ∀ ring head, pool.world.db.ringHeads ring = some head → ∀ b ∈ pool.world.db.artifacts,
      b.releaseId = head → b.kind = .db → b.awaits = none →
      ∃ source blob, b.repo = repoName source ring ∧ pool.world.db.bucket b.r2Key = some blob ∧
        blob.lists = pool.slice head source b.arch := by
  have sound : pool.Sound index := by
    refine reached.induct (Pool.Sound index) ?_ fun _ _ fits kept => truthful_next press fits kept
    exact ⟨rfl, _, Exact.fresh index bucket, Truthful.fresh distinct bucket⟩
  obtain ⟨isIndex, floor, inv, truthful⟩ := sound
  intro ring head isHead b member whose isDb current
  obtain ⟨source, ring', -, ⟨r, rMember, sameId, sameRing⟩, repo, -⟩ := truthful.keyed b member isDb
  -- The head's row is named by the head's ring.
  obtain ⟨q, qMember, isQ, -⟩ := inv.ordered.head_row isHead
  obtain ⟨inReleases, qRing⟩ := Db.mem_ofRing.mp qMember
  have same := inv.ordered.eq_of_id rMember inReleases (sameId.trans (whose.trans isQ.symm))
  have rings : ring' = ring := by rw [← sameRing, same, qRing]
  subst rings
  obtain ⟨blob, stored, lists⟩ := truthful.truth ring' head isHead b member whose isDb current source repo
  refine ⟨source, blob, repo, stored, ?_⟩
  rw [Pool.slice, isIndex]
  exact lists

/-! ## Two runs -/

/-- Two versions of one package, and a package of the other architecture. -/
def truthIndex : List Package :=
  [.sample 1 'a' "core" "bash", .sample 2 'b' "core" "bash" "1.1-1",
    .sample 3 'c' "core" "curl" "1.0-1" .aarch64]

/-- Edge's first release is rendered; the second changes the other architecture only. -/
def keptRun : List Act :=
  [.create { ring := "edge", add := [Package.sampleHash 'a'] }, .start 1 .x86_64, .put 0 "core",
    .rendered 0, .create { ring := "edge", add := [Package.sampleHash 'c'], removeArch := some "aarch64" }]

theorem truthful_of_keptRun :
    ∃ pool, Runs (Pool.next plainPress) PutsFit (Pool.fresh truthIndex fun _ => none) pool ∧
      (pool.world.db.ringHeads .edge = some 2 ∧
        pool.world.db.artifacts.map (fun b => (b.releaseId, b.awaits)) = [(1, none), (2, none)]) ∧
      ∀ ring head, pool.world.db.ringHeads ring = some head → ∀ b ∈ pool.world.db.artifacts,
        b.releaseId = head → b.kind = .db → b.awaits = none →
        ∃ source blob, b.repo = repoName source ring ∧ pool.world.db.bucket b.r2Key = some blob ∧
          blob.lists = pool.slice head source b.arch :=
  have reached := Runs.start.steps keptRun (by decide)
  ⟨_, reached, by decide, truthful_of_fits plainPress (by decide) reached⟩

/-- The first release's render starts and stops short of its put; the second release, which
replaces the package, is made and rendered whole; then the first render goes on. -/
def lateRun : List Act :=
  [.create { ring := "edge", add := [Package.sampleHash 'a'] }, .start 1 .x86_64,
    .create { ring := "edge", add := [Package.sampleHash 'b'] }, .start 2 .x86_64, .put 1 "core",
    .rendered 1, .put 0 "core"]

/-- No garbage collection. -/
def NoGc (act : Act) (_ : Pool) : Prop :=
  match act with
  | .gc _ => False
  | _ => True

instance (act : Act) (pool : Pool) : Decidable (NoGc act pool) := by
  apply Act.casesOn (motive := fun act => Decidable (NoGc act pool)) act <;> intros <;> (dsimp only [NoGc]; infer_instance)

/-- The head's row is current, and the bytes at its key list what it replaced. -/
theorem truthful_late_put :
    ¬ ∀ (press : Press) (index : List Package), (index.map (·.id)).Nodup →
      ∀ (bucket : String → Option Blob) (pool : Pool),
      Runs (Pool.next press) NoGc (Pool.fresh index bucket) pool →
      ∀ ring head, pool.world.db.ringHeads ring = some head → ∀ b ∈ pool.world.db.artifacts,
        b.releaseId = head → b.kind = .db → b.awaits = none →
        ∃ source blob, b.repo = repoName source ring ∧ pool.world.db.bucket b.r2Key = some blob ∧
          blob.lists = pool.slice head source b.arch := by
  intro law
  have reached : Runs (Pool.next plainPress) NoGc (Pool.fresh truthIndex fun _ => none) _ :=
    Runs.start.steps lateRun (by decide)
  obtain ⟨source, blob, repo, stored, lists⟩ := law plainPress truthIndex (by decide) _ _ reached
    .edge 2 (by decide) (databaseRow 2 "core" .edge .x86_64 1) (by decide) rfl rfl rfl
  obtain ⟨rfl, -⟩ := repoName_injective (show repoName "core" .edge = repoName source .edge from repo)
  have bytes : (lateRun.foldl (fun s act => Pool.next plainPress act s)
      (Pool.fresh truthIndex fun _ => none)).world.db.bucket
        (databaseRow 2 "core" .edge .x86_64 1).r2Key = some ⟨1, {1}, some 1⟩ := by decide
  rw [bytes, Option.some.injEq] at stored
  subst stored
  exact absurd lists (by decide)

end OmarchyPool
