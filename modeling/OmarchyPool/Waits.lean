/-
# OmarchyPool.Waits -- which database a row names, and whose render it awaits

Two facts about every row of a database, whatever GC has taken.  It names its database by the
ring of its release, and has that database's key.  And the render it awaits is of the packages
its release has: a row is carried across releases only where the selection of its architecture
is the same, and waits for the first of them otherwise.

`Waits` is both, with the releases the renders in flight have read.  A put is where they
matter: a row it made current because it awaited a render belongs to a release with the slice
the put is of (`Waits.awaited_slice`).
-/
import OmarchyPool.Carry

namespace OmarchyPool

open Lib

set_option autoImplicit false

/-- The rows of one database of a release. -/
def Db.databaseRows (db : Db) (release : ReleaseId) (repo : String) (arch : Arch) : List Artifact :=
  (db.artifactsOf release arch).filter fun b => b.kind == .db && b.repo == repo

theorem Db.mem_databaseRows {db : Db} {release : ReleaseId} {repo : String} {arch : Arch} {b : Artifact} :
    b ∈ db.databaseRows release repo arch ↔
      b ∈ db.artifacts ∧ b.releaseId = release ∧ b.arch = arch ∧ b.kind = .db ∧ b.repo = repo := by
  simp [Db.databaseRows, Db.mem_artifactsOf, and_assoc]

/-- Over an index, and with renders that read the releases `readers`. -/
structure Waits (index : List Package) (readers : List Release) (w : World) : Prop where
  readers : ∀ r ∈ readers, Known w r
  /-- A row names its database by the ring of its release, and has that database's key. -/
  keyed : ∀ b ∈ w.db.artifacts, b.kind = .db → ∃ source ring, '/' ∉ source.toList ∧
    w.db.IsOf ring b.releaseId ∧ b.repo = repoName source ring ∧
    b.r2Key = artifactKey source b.arch b.repo .db
  /-- The render a row awaits is of the same packages. -/
  waits : ∀ b ∈ w.db.artifacts, b.kind = .db → ∀ v, b.awaits = some v →
    (∃ q ∈ w.db.releases, q.id = v) ∧
      archSlice index (w.selection v) b.arch = archSlice index (w.selection b.releaseId) b.arch

namespace Waits

variable {index : List Package} {readers : List Release} {w w' : World}

theorem fresh (packages : List Package) (bucket : String → Option Blob) :
    Waits index [] (World.fresh packages bucket) := by
  refine ⟨?_, ?_, ?_⟩ <;> simp [World.fresh]

theorem isOf_of_same {db db' : Db} (same : db.SameReleases db') {ring : Ring} {id : ReleaseId}
    (is : db.IsOf ring id) : db'.IsOf ring id := by
  obtain ⟨r, member, rfl, rfl⟩ := is
  obtain ⟨r', member', eq⟩ := same.exists_fixed member
  exact ⟨r', member', Release.id_eq eq, Release.ring_eq eq⟩

theorem known_of_same {r : Release} (same : w.db.SameReleases w'.db) (known : Known w r) : Known w' r := by
  obtain ⟨row, member, eq⟩ := known
  obtain ⟨row', member', eq'⟩ := same.exists_fixed member
  exact ⟨row', member', eq'.trans eq⟩

/-- A render starts that read one of the releases. -/
theorem start (waits : Waits index readers w) {r : Release} (member : r ∈ w.db.releases) :
    Waits index (readers ++ [r]) w where
  readers := by
    intro q isReader
    rcases List.mem_append.mp isReader with old | new
    · exact waits.readers q old
    · rw [List.mem_singleton.mp new]
      exact .of_mem member
  keyed := waits.keyed
  waits := waits.waits

/-- Writes that leave the releases and the history, and drop rows at most. -/
theorem fewer (waits : Waits index readers w) (same : w.db.SameReleases w'.db)
    (rows : ∀ b ∈ w'.db.artifacts, b ∈ w.db.artifacts) (selection : w'.selection = w.selection) :
    Waits index readers w' where
  readers := fun r isReader => known_of_same same (waits.readers r isReader)
  keyed := by
    intro b member isDb
    obtain ⟨source, ring, plain, is, rest⟩ := waits.keyed b (rows b member) isDb
    exact ⟨source, ring, plain, isOf_of_same same is, rest⟩
  waits := by
    intro b member isDb v awaits
    obtain ⟨⟨q, qMember, isV⟩, slices⟩ := waits.waits b (rows b member) isDb v awaits
    obtain ⟨q', qMember', eq⟩ := same.exists_fixed qMember
    exact ⟨⟨q', qMember', (Release.id_eq eq).trans isV⟩, by rwa [selection]⟩

/-! ## A new release -/

/-- The selections after a batch: the new release has its target, the others what they had. -/
theorem selection_create {floor : Ring → Nat} (inv : Exact floor w) (b : CreateBatch) :
    (∀ r ∈ w.db.releases, (w.commit (w.db.applyRelease b)).selection r.id = w.selection r.id) ∧
      (w.commit (w.db.applyRelease b)).selection w.db.nextRelease = b.target w.db := by
  rw [World.commit_selection_applyRelease inv.ordered]
  refine ⟨fun r member => ?_, Function.update_self ..⟩
  exact Function.update_of_ne (Nat.ne_of_lt (inv.ordered.fresh r member)) ..

/-- The packages of an architecture the new release kept are those of the head before it. -/
theorem sameSlice {floor : Ring → Nat} (inv : Exact floor w) {b : CreateBatch}
    (unchanged : ∀ arch ∈ b.unchanged,
      archSlice index (b.target w.db) arch = archSlice index (w.db.ringPackages b.ring) arch)
    {head : ReleaseId} (isHead : w.db.ringHeads b.ring = some head) {arch : Arch}
    (isUnchanged : arch ∈ b.unchanged) :
    archSlice index (w.selection head) arch = archSlice index (b.target w.db) arch := by
  rw [unchanged arch isUnchanged, inv.live b.ring head isHead]

theorem create {floor : Ring → Nat} (waits : Waits index readers w) (inv : Exact floor w)
    {b : CreateBatch} (parent : b.parent = w.db.ringHeads b.ring)
    (unchanged : ∀ arch ∈ b.unchanged,
      archSlice index (b.target w.db) arch = archSlice index (w.db.ringPackages b.ring) arch) :
    Waits index readers (w.commit (w.db.applyRelease b)) := by
  have ordered := inv.ordered
  obtain ⟨kept, made⟩ := selection_create inv b
  have stillOf : ∀ {ring id}, w.db.IsOf ring id → (w.db.applyRelease b).IsOf ring id := by
    rintro ring id ⟨r, member, rest⟩
    exact ⟨r, by simp [member], rest⟩
  have split : ∀ row ∈ (w.db.applyRelease b).artifacts, _ := fun _ => applyRelease_rows inv.toRooted parent
  refine ⟨?_, ?_, ?_⟩
  · intro r isReader
    obtain ⟨row, member, eq⟩ := waits.readers r isReader
    exact ⟨row, by simp [member], eq⟩
  · intro row member isDb
    rcases split row member with old | ⟨head, isHead, c, inTable, near, carries⟩
    · obtain ⟨source, ring, plain, is, rest⟩ := waits.keyed row old isDb
      exact ⟨source, ring, plain, stillOf is, rest⟩
    · obtain ⟨whose, repo, arch, kind, key⟩ := carries.same
      obtain ⟨source, ring, plain, is, isRepo, isKey⟩ := waits.keyed c inTable (kind.symm.trans isDb)
      -- The ancestors of the head are of its ring.
      have rings : ring = b.ring := isOf_unique inv.toRooted is
        (isOf_ancestors inv.toRooted 12 (isOf_head inv.toRooted isHead) (List.mem_of_find?_eq_some near))
      refine ⟨source, ring, plain, ?_, repo.trans isRepo, ?_⟩
      · rw [whose, rings]
        exact ⟨b.row w.db.nextRelease, by simp, rfl, rfl⟩
      · rw [key, arch, repo]
        exact isKey
  · intro row member isDb v awaits
    rcases split row member with old | ⟨head, isHead, c, inTable, -, carries⟩
    · obtain ⟨⟨q, qMember, rfl⟩, slices⟩ := waits.waits row old isDb v awaits
      obtain ⟨-, -, -, ⟨r, rMember, sameId, -⟩, -⟩ := waits.keyed row old isDb
      refine ⟨⟨q, by simp [qMember], rfl⟩, ?_⟩
      rw [kept q qMember, ← sameId, kept r rMember, sameId]
      exact slices
    · obtain ⟨q, qMember, isQ, -⟩ := ordered.head_row isHead
      have qOld := (Db.mem_ofRing.mp qMember).1
      cases carries with
      | changed _ =>
          cases awaits
          exact ⟨⟨b.row w.db.nextRelease, by simp, rfl⟩, rfl⟩
      | kept isUnchanged fromHead =>
          obtain ⟨⟨q', q'Member, rfl⟩, slices⟩ := waits.waits c inTable isDb v awaits
          refine ⟨⟨q', by simp [q'Member], rfl⟩, ?_⟩
          rw [kept q' q'Member, made, slices, fromHead]
          exact sameSlice inv unchanged isHead isUnchanged
      | older isUnchanged =>
          rw [Option.some.injEq] at awaits
          subst awaits
          refine ⟨⟨q, by simp [qOld], isQ⟩, ?_⟩
          rw [made, ← isQ, kept q qOld, isQ]
          exact sameSlice inv unchanged isHead isUnchanged

/-! ## A put -/

section Put

variable {release : Release} {source : String} {arch : Arch} {bytes : Blob}

/-- A row the put made current, because it awaited the render or the one the release's own row
awaited, is of a release with the same packages of the architecture. -/
theorem awaited_slice (waits : Waits index readers w) {size : Nat} {c : Artifact} {v : ReleaseId}
    (inTable : c ∈ w.db.artifacts) (isArch : c.arch = arch) (isDb : c.kind = .db) (awaits : c.awaits = some v)
    (why : v = release.id ∨ w.db.ownWait (databaseRow release.id source release.ring arch size) = some v) :
    archSlice index (w.selection c.releaseId) arch = archSlice index (w.selection release.id) arch := by
  have ofRow := (waits.waits c inTable isDb v awaits).2
  rw [isArch] at ofRow
  rw [← ofRow]
  rcases why with rfl | isWait
  · rfl
  · obtain ⟨d, inTable', whose, -, archD, kindD, awaitsD⟩ := Db.ownWait_row isWait
    have := (waits.waits d inTable' kindD v awaitsD).2
    rwa [archD, whose] at this

/-- The put of a release's database. -/
theorem put {floor : Ring → Nat} (waits : Waits index readers w) (inv : Exact floor w)
    (known : Known w release) (plain : '/' ∉ source.toList)
    (posted : Posted w w' (databaseRow release.id source release.ring arch bytes.size) bytes) :
    Waits index readers w' := by
  generalize row : databaseRow release.id source release.ring arch bytes.size = a at posted
  have isRow : a.releaseId = release.id ∧ a.repo = repoName source release.ring ∧ a.arch = arch ∧
      a.kind = .db ∧ a.r2Key = artifactKey source arch (repoName source release.ring) .db := by
    rw [← row]
    exact ⟨rfl, rfl, rfl, rfl, rfl⟩
  obtain ⟨whoseA, repoA, archA, kindA, keyA⟩ := isRow
  have rest := posted.shelved.rest
  have releases : w'.db.releases = w.db.releases := by rw [rest]
  have releaseOf : w.db.IsOf release.ring release.id := by
    obtain ⟨r, member, eq⟩ := known
    exact ⟨r, member, Release.id_eq eq, Release.ring_eq eq⟩
  -- What the put made current is a database of the release's ring.
  have ofRing : ∀ {id}, Claims w.db a id → w.db.IsOf release.ring id := by
    intro id claims
    cases claims with
    | own is =>
        rw [is, whoseA]
        exact releaseOf
    | kin isKin _ =>
        refine isOf_descend inv.toRooted 3 ?_ isKin
        intro i member
        rw [List.mem_singleton.mp member, whoseA]
        exact releaseOf
    | waited c v inTable whose repo _ kind _ _ =>
        obtain ⟨source', ring, -, is, isRepo, -⟩ := waits.keyed c inTable (kind.trans kindA)
        have sameRepo : repoName source' ring = repoName source release.ring :=
          isRepo.symm.trans (repo.trans repoA)
        rw [← whose, ← (repoName_injective sameRepo).2]
        exact is
  refine ⟨?_, ?_, ?_⟩
  · intro r isReader
    obtain ⟨q, member, eq⟩ := waits.readers r isReader
    exact ⟨q, by rwa [releases], eq⟩
  · intro b member isDb
    unfold Db.IsOf
    rw [releases]
    rcases posted.posting.rows b member with old | ⟨-, new⟩
    · exact waits.keyed b old isDb
    · have current := new (isDb.trans kindA.symm)
      refine ⟨source, release.ring, plain, ofRing current.claims, current.repo.trans repoA, ?_⟩
      rw [current.key, keyA, current.arch, archA, current.repo, repoA]
  · intro b member isDb v awaits
    rw [releases, posted.shelved.selection]
    exact waits.waits b (posted.posting.awaiting member awaits) isDb v awaits

/-- After it a row of the database is at bytes the put wrote, and any other is as it was. -/
theorem put_database (waits : Waits index readers w') (plain : '/' ∉ source.toList)
    (posted : Posted w w' (databaseRow release.id source release.ring arch bytes.size) bytes) {b : Artifact}
    (member : b ∈ w'.db.artifacts) (isDb : b.kind = .db) :
    (b.repo = repoName source release.ring ∧ b.arch = arch ∧ w'.db.bucket b.r2Key = some bytes) ∨
      (b ∈ w.db.artifacts ∧ (b.repo = repoName source release.ring → b.arch ≠ arch) ∧
        w'.db.bucket b.r2Key = w.db.bucket b.r2Key) := by
  obtain ⟨source₀, ring₀, plain₀, -, repo, key⟩ := waits.keyed b member isDb
  have stored := posted.stored source₀ b.arch b.repo
  rw [← key] at stored
  by_cases here : b.r2Key = (databaseRow release.id source release.ring arch bytes.size).r2Key
  · rw [if_pos here] at stored
    obtain ⟨-, isArch, isRepo⟩ := dbKey_injective plain₀ plain (key.symm.trans here)
    exact .inl ⟨isRepo, isArch, stored⟩
  · rw [if_neg here] at stored
    refine .inr ⟨?_, ?_, stored⟩
    · rcases posted.posting.rows b member with old | ⟨-, new⟩
      · exact old
      · exact absurd (new isDb).key here
    · intro isRepo isArch
      refine here ?_
      obtain ⟨rfl, -⟩ := repoName_injective (repo.symm.trans isRepo)
      rw [key, isArch, isRepo]
      rfl

end Put

end Waits

end OmarchyPool
