/-
# OmarchyPool.Carry -- what a new release takes over from its ancestors

A release goes on serving the databases of the nearest ancestor that has any, architecture
by architecture.  Here is what that gives it, row by row (`applyRelease_rows`): a row of an
architecture the release changed awaits its own render; of one it kept, it is the parent's row,
or one from further back that awaits the parent's render.  Nothing else becomes current.

What the request calls unchanged is unchanged (`target_unchanged`): the release has the same
packages of that architecture as its parent.  And a release shares its ring with its ancestors
and descendants, so the name of a repository stays right as its row is carried.
-/
import OmarchyPool.Exact
import OmarchyPool.Renders

namespace OmarchyPool

open Lib

set_option autoImplicit false

/-! ## Rows of databases and the releases -/

/-- Rows of databases and objects of the bucket are no part of the tables `Exact` is about. -/
theorem Exact.shelved {floor : Ring → Nat} {w w' : World} (inv : Exact floor w) (shelved : Shelved w w') :
    Exact floor w' := by
  have db := shelved.rest
  have selection := shelved.selection
  cases w' with
  | mk db' selection' =>
      simp only at db selection
      rw [db, selection]
      exact ⟨⟨⟨inv.ordered.ids, inv.ordered.fresh, inv.ordered.seqs, inv.ordered.heads⟩, inv.live,
        inv.chain, inv.above, inv.deltas, inv.low⟩, inv.idle, inv.rows, inv.bare⟩

theorem Shelved.same {w w' : World} (shelved : Shelved w w') : w.db.SameReleases w'.db := by
  refine ⟨?_, ?_, ?_⟩ <;> rw [shelved.rest]

theorem Shelved.bare {w w' : World} (shelved : Shelved w w') : w'.db.bare = w.db.bare := by
  funext id arch
  unfold Db.bare Db.release?
  rw [shelved.rest]

/-! ## Ancestors and descendants -/

/-- A release of a ring. -/
def Db.IsOf (db : Db) (ring : Ring) (id : ReleaseId) : Prop := ∃ r ∈ db.releases, r.id = id ∧ r.ring = ring

section Kin

variable {floor : Ring → Nat} {w : World} (rooted : Rooted floor w)
include rooted

theorem isOf_parent {r : Release} (member : r ∈ w.db.releases) {p : ReleaseId}
    (isParent : r.parentId = some p) {ring : Ring} : w.db.IsOf ring p ↔ r.ring = ring := by
  obtain ⟨q, qMember, rfl, sameRing, -⟩ := rooted.parent member isParent
  constructor
  · rintro ⟨q', member', sameId, rfl⟩
    rw [rooted.ordered.eq_of_id member' qMember sameId, sameRing]
  · rintro rfl
    exact ⟨q, qMember, rfl, sameRing⟩

/-- A ring's head is one of its releases. -/
theorem isOf_head {ring : Ring} {head : ReleaseId} (isHead : w.db.ringHeads ring = some head) :
    w.db.IsOf ring head := by
  obtain ⟨r, isOf, sameId, -⟩ := rooted.ordered.head_row isHead
  obtain ⟨member, sameRing⟩ := Db.mem_ofRing.mp isOf
  exact ⟨r, member, sameId, sameRing⟩

/-- A release is of one ring. -/
theorem isOf_unique {ring ring' : Ring} {id : ReleaseId} (is : w.db.IsOf ring id) (is' : w.db.IsOf ring' id) :
    ring = ring' := by
  obtain ⟨r, member, isR, rfl⟩ := is
  obtain ⟨q, qMember, isQ, rfl⟩ := is'
  rw [rooted.ordered.eq_of_id member qMember (isR.trans isQ.symm)]

theorem isOf_ancestors {ring : Ring} (fuel : Nat) {id x : ReleaseId} (is : w.db.IsOf ring id)
    (member : x ∈ w.db.ancestors fuel id) : w.db.IsOf ring x := by
  induction fuel generalizing id with
  | zero =>
      rw [Db.ancestors, List.mem_singleton] at member
      rwa [member]
  | succ fuel ih =>
      rw [Db.ancestors] at member
      rcases List.mem_cons.mp member with rfl | above
      · exact is
      cases found : (w.db.release? id).bind (·.parentId) with
      | none =>
          rw [found] at above
          cases above
      | some parent =>
          rw [found] at above
          obtain ⟨r, read, isParent⟩ := Option.bind_eq_some_iff.mp found
          obtain ⟨rMember, rfl⟩ := rooted.ordered.release?_eq_some.mp read
          obtain ⟨r', member', sameId, sameRing⟩ := is
          rw [rooted.ordered.eq_of_id member' rMember sameId] at sameRing
          exact ih ((isOf_parent rooted rMember isParent).mpr sameRing) above

theorem isOf_descend {ring : Ring} (fuel : Nat) {ids : List ReleaseId}
    (are : ∀ id ∈ ids, w.db.IsOf ring id) {x : ReleaseId} (member : x ∈ w.db.descend fuel ids) :
    w.db.IsOf ring x := by
  induction fuel generalizing ids with
  | zero => cases member
  | succ fuel ih =>
      have children : ∀ id ∈ (w.db.releases.filter fun r => r.parentId.any (· ∈ ids)).map (·.id),
          w.db.IsOf ring id := by
        intro id isChild
        obtain ⟨r, made, rfl⟩ := List.mem_map.mp isChild
        obtain ⟨rMember, fromIds⟩ := List.mem_filter.mp made
        obtain ⟨p, isParent, inIds⟩ := (Option.any_eq_true _ _).mp fromIds
        exact ⟨r, rMember, rfl,
          (isOf_parent rooted rMember isParent).mp (are p (by simpa using inIds))⟩
      rw [Db.descend] at member
      rcases List.mem_append.mp member with child | further
      · exact children x child
      · exact ih children further

end Kin

/-! ## The rows a batch inserts -/

/-- A row a new release `id` carries from the row `c` of an ancestor. -/
inductive Carries (id parent : ReleaseId) (unchanged : List Arch) (c : Artifact) : Artifact → Prop where
  | changed : c.arch ∉ unchanged → Carries id parent unchanged c { c with releaseId := id, awaits := some id }
  | kept : c.arch ∈ unchanged → c.releaseId = parent →
      Carries id parent unchanged c { c with releaseId := id }
  | older : c.arch ∈ unchanged →
      Carries id parent unchanged c { c with releaseId := id, awaits := some parent }

theorem Carries.same {id parent : ReleaseId} {unchanged : List Arch} {c b : Artifact}
    (carries : Carries id parent unchanged c b) : b.releaseId = id ∧ b.repo = c.repo ∧ b.arch = c.arch ∧
      b.kind = c.kind ∧ b.r2Key = c.r2Key := by
  cases carries <;> exact ⟨rfl, rfl, rfl, rfl, rfl⟩

/-- The walk for rows to carry stops at a release that has rows of the architecture, or holds no
package of it. -/
def Db.stops (db : Db) (arch : Arch) (id : ReleaseId) : Bool :=
  !(db.artifactsOf id arch).isEmpty || db.bare id arch

/-- Where the walk from a release stops: at itself, or the nearest of its ancestors. -/
def Db.nearest (db : Db) (id : ReleaseId) (arch : Arch) : Option ReleaseId :=
  (db.ancestors 12 id).find? (db.stops arch)

theorem Db.mem_artifactsOf {db : Db} {id : ReleaseId} {arch : Arch} {b : Artifact} :
    b ∈ db.artifactsOf id arch ↔ b ∈ db.artifacts ∧ b.releaseId = id ∧ b.arch = arch := by
  simp [Db.artifactsOf]

theorem Db.stops_iff {db : Db} {arch : Arch} {id : ReleaseId} : db.stops arch id = true ↔
    (∃ b ∈ db.artifacts, b.releaseId = id ∧ b.arch = arch) ∨ db.bare id arch = true := by
  simp [Db.stops, Db.artifactsOf, List.filter_eq_nil_iff]

theorem ancestors_cons (db : Db) (fuel : Nat) (id : ReleaseId) : ∃ above, db.ancestors fuel id = id :: above := by
  cases fuel with
  | zero => exact ⟨[], rfl⟩
  | succ fuel => exact ⟨_, rfl⟩

theorem ancestors_shorter (db : Db) (fuel : Nat) (id : ReleaseId) :
    db.ancestors fuel id <+: db.ancestors (fuel + 1) id := by
  induction fuel generalizing id with
  | zero => exact ⟨_, rfl⟩
  | succ fuel ih =>
      rw [Db.ancestors]
      refine (List.prefix_cons_inj id).mpr ?_
      cases (db.release? id).bind (·.parentId) with
      | none => exact List.prefix_rfl
      | some parent => exact ih parent

/-- It stops at the release itself, if that has rows. -/
theorem nearest_of_row {db : Db} {b : Artifact} (member : b ∈ db.artifacts) :
    db.nearest b.releaseId b.arch = some b.releaseId := by
  unfold Db.nearest
  obtain ⟨above, ancestors⟩ := ancestors_cons db 12 b.releaseId
  rw [ancestors, List.find?_cons_of_pos (Db.stops_iff.mpr (.inl ⟨b, member, rfl, rfl⟩))]

theorem nearest_self {db : Db} {id x : ReleaseId} {arch : Arch} (is : db.nearest id arch = some x) :
    x = id ∨ ∀ b ∈ db.artifacts, b.releaseId = id → b.arch ≠ arch := by
  by_cases own : ∃ b ∈ db.artifacts, b.releaseId = id ∧ b.arch = arch
  · obtain ⟨b, member, rfl, rfl⟩ := own
    rw [nearest_of_row member] at is
    exact .inl (Option.some.inj is).symm
  · exact .inr fun b member whose isArch => own ⟨b, member, whose, isArch⟩

/-- The walk of an index that stops at whatever this one stops at, and ends at a row this one
has too, ends where this one does. -/
theorem nearest_of_more {db db' : Db} {id : ReleaseId} {b : Artifact} (member : b ∈ db.artifacts)
    (ancestors : db'.ancestors 12 id = db.ancestors 12 id)
    (more : ∀ x ∈ db.ancestors 12 id, db.stops b.arch x = true → db'.stops b.arch x = true)
    (is : db'.nearest id b.arch = some b.releaseId) : db.nearest id b.arch = some b.releaseId := by
  unfold Db.nearest at is ⊢
  rw [ancestors] at is
  obtain ⟨-, i, inside, at_, before⟩ := List.find?_eq_some_iff_getElem.mp is
  refine List.find?_eq_some_iff_getElem.mpr
    ⟨Db.stops_iff.mpr (.inl ⟨b, member, rfl, rfl⟩), i, inside, at_, ?_⟩
  intro j nearer
  have passed := before j nearer
  rw [Bool.not_eq_true', Bool.eq_false_iff] at passed ⊢
  exact fun stops => passed (more _ (List.getElem_mem _) stops)

theorem carriedOf_rows {db : Db} {id parent : ReleaseId} {unchanged : List Arch} {arch : Arch}
    {b : Artifact} (member : b ∈ db.carriedOf id parent unchanged arch) :
    ∃ c ∈ db.artifacts, db.nearest parent c.arch = some c.releaseId ∧ Carries id parent unchanged c b := by
  unfold Db.carriedOf at member
  dsimp only at member
  cases found : db.carryDepth (db.ancestors 12 parent) arch with
  | none =>
      rw [found] at member
      cases member
  | some depth =>
      rw [found] at member
      obtain ⟨c, isRow, rfl⟩ := List.mem_map.mp member
      obtain ⟨inTable, whose, rfl⟩ := Db.mem_artifactsOf.mp isRow
      obtain ⟨inside, stops, before⟩ := List.findIdx?_eq_some_iff_getElem.mp found
      rw [List.getD_eq_getElem?_getD, List.getElem?_eq_getElem inside, Option.getD_some] at whose
      refine ⟨c, inTable, ?_, ?_⟩
      · refine List.find?_eq_some_iff_getElem.mpr ⟨by rwa [whose], depth, inside, whose.symm, ?_⟩
        intro j nearer
        rw [Bool.not_eq_true', Bool.eq_false_iff]
        exact before j nearer
      · by_cases kept : c.arch ∈ unchanged
        · by_cases isFirst : depth = 0
          · have own : c.releaseId = parent := by
              subst isFirst
              rw [whose]
              simp [Db.ancestors]
            simpa [kept, isFirst] using @Carries.kept id parent unchanged c kept own
          · simpa [kept, isFirst] using @Carries.older id parent unchanged c kept
        · simpa [kept] using @Carries.changed id parent unchanged c kept

/-- Every row where the walk stops is carried. -/
theorem carriedOf_nearest {db : Db} (id : ReleaseId) {parent : ReleaseId} (unchanged : List Arch) {c : Artifact}
    (member : c ∈ db.artifacts) (near : db.nearest parent c.arch = some c.releaseId) :
    ∃ b ∈ db.carriedOf id parent unchanged c.arch, b.releaseId = id ∧ b.repo = c.repo ∧ b.arch = c.arch ∧
      b.kind = c.kind := by
  obtain ⟨stops, depth, inside, whose, before⟩ := List.find?_eq_some_iff_getElem.mp near
  have found : db.carryDepth (db.ancestors 12 parent) c.arch = some depth := by
    refine List.findIdx?_eq_some_iff_getElem.mpr ⟨inside, by rwa [whose], ?_⟩
    intro j nearer
    have passed := before j nearer
    rwa [Bool.not_eq_true', Bool.eq_false_iff] at passed
  unfold Db.carriedOf
  dsimp only
  rw [found]
  refine ⟨_, List.mem_map.mpr ⟨c, Db.mem_artifactsOf.mpr ⟨member, ?_, rfl⟩, rfl⟩, rfl, rfl, rfl, rfl⟩
  rw [List.getD_eq_getElem?_getD, List.getElem?_eq_getElem inside, Option.getD_some, whose]

section Batch

variable {floor : Ring → Nat} {w : World} (rooted : Rooted floor w)
include rooted

/-- A new release is no ancestor of one that was there. -/
theorem ancestors_later {releases : List Release} {db : Db} (more : db.releases = w.db.releases ++ releases)
    (fuel : Nat) {id : ReleaseId} (known : ∃ r ∈ w.db.releases, r.id = id) :
    db.ancestors fuel id = w.db.ancestors fuel id := by
  induction fuel generalizing id with
  | zero => rfl
  | succ fuel ih =>
      obtain ⟨r, member, rfl⟩ := known
      have read := rooted.ordered.release?_of_mem member
      have same : db.release? r.id = some r := by
        rw [Db.release?, more, List.find?_append]
        rw [Db.release?] at read
        rw [read]
        rfl
      simp only [Db.ancestors, same, read, Option.bind_some]
      cases isParent : r.parentId with
      | none => rfl
      | some p =>
          obtain ⟨q, qMember, isQ, -⟩ := rooted.parent member isParent
          dsimp only
          rw [ih ⟨q, qMember, isQ⟩]

/-- Nor is the walk from one that was there any other, in an index with the rows it had. -/
theorem nearest_later (releases : List Release) {db : Db} (more : db.releases = w.db.releases ++ releases)
    (rows : ∀ r ∈ w.db.releases, ∀ b, b.releaseId = r.id → (b ∈ db.artifacts ↔ b ∈ w.db.artifacts))
    {id : ReleaseId} (known : ∃ r ∈ w.db.releases, r.id = id) (arch : Arch) :
    db.nearest id arch = w.db.nearest id arch := by
  unfold Db.nearest
  rw [ancestors_later rooted more 12 known]
  obtain ⟨r, member, rfl⟩ := known
  refine List.find?_congr fun x isAbove => Bool.eq_iff_iff.mpr ?_
  obtain ⟨q, qMember, rfl, -⟩ := isOf_ancestors rooted 12 ⟨r, member, rfl, rfl⟩ isAbove
  have read := rooted.ordered.release?_of_mem qMember
  have same : db.release? q.id = some q := by
    rw [Db.release?] at read ⊢
    rw [more, List.find?_append, read]
    rfl
  rw [Db.stops_iff, Db.stops_iff, Db.bare, Db.bare, same, read]
  refine or_congr_left ⟨?_, ?_⟩
  · rintro ⟨b, inTable, whose, isArch⟩
    exact ⟨b, (rows q qMember b whose).mp inTable, whose, isArch⟩
  · rintro ⟨b, inTable, whose, isArch⟩
    exact ⟨b, (rows q qMember b whose).mpr inTable, whose, isArch⟩

/-- After a batch: the rows there were, and what the new release carries. -/
theorem applyRelease_rows {b : CreateBatch} (parent : b.parent = w.db.ringHeads b.ring) {row : Artifact}
    (member : row ∈ (w.db.applyRelease b).artifacts) :
    row ∈ w.db.artifacts ∨ ∃ head, w.db.ringHeads b.ring = some head ∧ ∃ c ∈ w.db.artifacts,
      w.db.nearest head c.arch = some c.releaseId ∧ Carries w.db.nextRelease head b.unchanged c row := by
  unfold Db.applyRelease at member
  dsimp only at member
  rcases Db.mem_insertArtifacts _ member with old | ⟨new, -⟩
  · exact .inl old
  unfold Db.carried at new
  cases isHead : w.db.ringHeads b.ring with
  | none =>
      rw [parent.trans isHead] at new
      cases new
  | some head =>
      rw [parent.trans isHead] at new
      obtain ⟨arch, -, new⟩ := List.mem_flatMap.mp new
      obtain ⟨c, inTable, near, carries⟩ := carriedOf_rows new
      refine .inr ⟨head, rfl, c, inTable, ?_, carries⟩
      obtain ⟨r, rMember, isHead, -⟩ := rooted.ordered.head_row isHead
      refine (nearest_later rooted [b.row w.db.nextRelease] ?_ ?_ ?_ c.arch).symm.trans near
      · rfl
      · exact fun _ _ _ _ => Iff.rfl
      · exact ⟨r, (Db.mem_ofRing.mp rMember).1, isHead⟩

/-- The releases there were have the rows they had. -/
theorem applyRelease_older {b : CreateBatch} (parent : b.parent = w.db.ringHeads b.ring) {row : Artifact}
    (older : row.releaseId ≠ w.db.nextRelease) :
    row ∈ (w.db.applyRelease b).artifacts ↔ row ∈ w.db.artifacts := by
  constructor
  · intro member
    rcases applyRelease_rows rooted parent member with old | ⟨_, -, _, -, -, carries⟩
    · exact old
    · exact absurd carries.same.1 older
  · intro member
    unfold Db.applyRelease
    dsimp only
    exact Db.mem_insertArtifacts_of_mem _ member

/-- Of each row where the walk from the head stops, the new release has one. -/
theorem applyRelease_carries {b : CreateBatch} (parent : b.parent = w.db.ringHeads b.ring) {head : ReleaseId}
    (isHead : w.db.ringHeads b.ring = some head) {c : Artifact} (inTable : c ∈ w.db.artifacts)
    (near : w.db.nearest head c.arch = some c.releaseId) :
    ∃ row ∈ (w.db.applyRelease b).artifacts, row.releaseId = w.db.nextRelease ∧ row.repo = c.repo ∧
      row.arch = c.arch ∧ row.kind = c.kind := by
  unfold Db.applyRelease
  dsimp only
  rw [parent.trans isHead, Db.carried]
  obtain ⟨r, rMember, isRelease, -⟩ := rooted.ordered.head_row isHead
  generalize is : (⟨w.db.packages, w.db.releases ++ [b.row w.db.nextRelease], _, _, _, _, _,
    w.db.artifacts, _⟩ : Db) = inserted
  have later : inserted.nearest head c.arch = some c.releaseId := by
    rw [← near, ← is]
    refine nearest_later rooted [b.row w.db.nextRelease] ?_ ?_ ?_ c.arch
    · rfl
    · exact fun _ _ _ _ => Iff.rfl
    · exact ⟨r, (Db.mem_ofRing.mp rMember).1, isRelease⟩
  have inInserted : c ∈ inserted.artifacts := by rwa [← is]
  obtain ⟨row, carried, whose, repo, arch, kind⟩ :=
    carriedOf_nearest w.db.nextRelease b.unchanged inInserted later
  obtain ⟨d, inTable, sameRelease, sameRepo, sameArch, sameKind⟩ := Db.hasArtifact_eq_true.mp
    (Db.hasArtifact_of_inserted inserted (List.mem_flatMap.mpr ⟨c.arch, mem_repoArches _, carried⟩))
  exact ⟨d, inTable, sameRelease.trans whose, sameRepo.trans repo, sameArch.trans arch, sameKind.trans kind⟩

/-- The walk from the new release stops at itself, or where it has no rows to carry. -/
theorem nearest_new {b : CreateBatch} (parent : b.parent = w.db.ringHeads b.ring) {row : Artifact}
    (member : row ∈ w.db.artifacts) (older : row.releaseId ≠ w.db.nextRelease) :
    (w.db.applyRelease b).nearest w.db.nextRelease row.arch ≠ some row.releaseId := by
  intro near
  have ordered := rooted.ordered
  have read : ((w.db.applyRelease b).release? w.db.nextRelease).bind (·.parentId) = w.db.ringHeads b.ring := by
    rw [ordered.applyRelease_release?, if_pos rfl]
    exact parent
  unfold Db.nearest at near
  rw [Db.ancestors, read, List.find?_cons] at near
  split at near
  · exact older (Option.some.inj near).symm
  rename_i passed
  cases isHead : w.db.ringHeads b.ring with
  | none =>
      rw [isHead] at near
      cases near
  | some head =>
      rw [isHead] at near
      obtain ⟨r, rMember, isRelease, -⟩ := ordered.head_row isHead
      -- It would have stopped there on the way from the head, and the new release carry the row.
      have fromHead : (w.db.applyRelease b).nearest head row.arch = some row.releaseId :=
        (ancestors_shorter _ 11 head).find?_eq_some near
      rw [nearest_later rooted _ (Db.applyRelease_releases ..) ?_
        ⟨r, (Db.mem_ofRing.mp rMember).1, isRelease⟩] at fromHead
      · obtain ⟨own, inTable, whose, -, isArch, -⟩ := applyRelease_carries rooted parent isHead member fromHead
        rw [Db.stops_iff.mpr (.inl ⟨own, inTable, whose, isArch⟩)] at passed
        cases passed
      · intro q qMember c whose
        refine applyRelease_older rooted parent ?_
        rw [whose]
        exact Nat.ne_of_lt (ordered.fresh q qMember)

end Batch

/-! ## Unchanged architectures -/

/-- The rows of `add` within an architecture are of that architecture. -/
theorem mem_addedIds_within {db : Db} {add : List String} {arch : Arch} {id : PackageId}
    (member : id ∈ db.addedIds add (some arch)) : ∃ p ∈ db.packages, p.id = id ∧ p.repoArch = arch := by
  simp only [Db.addedIds, List.mem_eraseDups, List.mem_flatMap, List.mem_map, Wanted.rowsOf,
    Db.addRows, List.mem_filter, Bool.and_eq_true, Option.all_some, beq_iff_eq] at member
  obtain ⟨-, -, p, ⟨⟨inTable, -, isArch⟩, -⟩, same⟩ := member
  exact ⟨p, inTable, same, isArch.symm⟩

/-- The batch names no package of another architecture than `within`. -/
def CreateBatch.Within (b : CreateBatch) (db : Db) (within : Arch) : Prop :=
  (b.removeArch = some within ∧ ∀ id ∈ b.added, ∃ p ∈ db.packages, p.id = id ∧ p.repoArch = within) ∨
    b.remove = [] ∧ b.removeFrom = [] ∧ b.added = []

/-- So of another architecture the target is the base. -/
theorem mem_target_within {db : Db} (distinct : (db.packages.map (·.id)).Nodup) {b : CreateBatch}
    {within : Arch} (is : b.Within db within) {p : Package} (member : p ∈ db.packages)
    (other : p.repoArch ≠ within) : p.id ∈ b.target db ↔ p.id ∈ b.base.rows db := by
  have notAdded : ∀ q ∈ db.packages, q.id ∈ b.added → q.repoArch = within := by
    intro q qMember isAdded
    rcases is with ⟨-, adds⟩ | ⟨-, -, none⟩
    · obtain ⟨q', member', same, isArch⟩ := adds q.id isAdded
      rw [← isArch, List.inj_on_of_nodup_map distinct member' qMember same]
    · rw [none] at isAdded
      cases isAdded
  have stays : (!b.removes p && !b.replaces db p) = true := by
    have spared : b.removes p = false := by
      rcases is with ⟨isWithin, -⟩ | ⟨noRemove, noRemoveFrom, -⟩
      · simp only [CreateBatch.removes, isWithin, Option.all_some, beq_eq_false_iff_ne.mpr other.symm,
          Bool.and_false]
      · simp [CreateBatch.removes, noRemove, noRemoveFrom]
    have unreplaced : b.replaces db p = false := by
      rw [CreateBatch.replaces, List.any_eq_false]
      intro q qMember
      simp only [Bool.and_eq_true, List.contains_eq_mem, decide_eq_true_eq, beq_iff_eq, not_and]
      intro isAdded sameSlot
      exact other ((congrArg (·.2.2) sameSlot).symm.trans (notAdded q qMember isAdded))
    simp [spared, unreplaced]
  simp only [CreateBatch.target, Finset.mem_union, Db.mem_select distinct member, List.mem_toFinset, stays,
    and_true]
  constructor
  · rintro (inBase | isAdded)
    · exact inBase
    · exact absurd (notAdded p member isAdded) other
  · exact .inl

/-- What makes a request call an architecture unchanged. -/
inductive Untouched (body : CreateRelease) (source : Option Release) (removeArch onlyArch : Option Arch)
    (added : List PackageId) (parent : Release) (arch : Arch) : Prop where
  /-- It starts from the parent, and keeps to another architecture. -/
  | own (within : Arch) : arch ≠ within → removeArch = some within →
      (∀ s, source = some s → s.id = parent.id) → Untouched body source removeArch onlyArch added parent arch
  /-- It takes another architecture from elsewhere, and names packages of that one or none. -/
  | half (within : Arch) (s : Release) : arch ≠ within → onlyArch = some within → source = some s →
      s.id ≠ parent.id →
      (removeArch = some within ∨ body.remove = [] ∧ body.removeFrom = [] ∧ added = []) →
      Untouched body source removeArch onlyArch added parent arch

theorem untouched_of_mem {body : CreateRelease} {source parent : Option Release}
    {removeArch onlyArch : Option Arch} {added : List PackageId} {arch : Arch}
    (is : arch ∈ unchangedArches body source parent removeArch onlyArch added) :
    ∃ p, parent = some p ∧ Untouched body source removeArch onlyArch added p arch := by
  unfold unchangedArches at is
  cases parent with
  | none => simp at is
  | some p =>
      refine ⟨p, rfl, ?_⟩
      by_cases fromParent : ((some p).isSome && (source.or (some p)).map (·.id) == (some p).map (·.id)) = true
      · simp only [fromParent, if_true] at is
        cases isWithin : removeArch with
        | none => simp [isWithin] at is
        | some within =>
            simp only [isWithin, List.mem_filter, decide_eq_true_eq] at is
            refine .own within is.2 rfl ?_
            rintro s rfl
            simpa using fromParent
      · simp only [fromParent, Bool.false_eq_true, if_false] at is
        obtain ⟨s, rfl⟩ : ∃ s, source = some s := by
          cases source with
          | none => simp at fromParent
          | some s => exact ⟨s, rfl⟩
        by_cases half : (onlyArch.isSome && ((body.remove.isEmpty && body.removeFrom.isEmpty &&
            added.isEmpty) || removeArch == onlyArch)) = true
        · simp only [half, if_true] at is
          cases isOnly : onlyArch with
          | none => simp [isOnly] at is
          | some within =>
              simp only [isOnly, List.mem_filter, decide_eq_true_eq] at is
              refine .half within s is.2 rfl rfl (by simpa using fromParent) ?_
              simp only [isOnly, Option.isSome_some, Bool.true_and, Bool.or_eq_true, Bool.and_eq_true,
                List.isEmpty_iff, beq_iff_eq] at half
              rcases half with ⟨⟨noRemove, noRemoveFrom⟩, noAdd⟩ | isWithin
              · exact .inr ⟨noRemove, noRemoveFrom, noAdd⟩
              · exact .inl isWithin
        · simp [half] at is

/-- An architecture a request calls unchanged is the parent's: the base has it as the ring
serves it, and nothing the request names is of it. -/
theorem target_unchanged {more : (Ring → Nat) → World → Prop} {body : CreateRelease} {reads : Reads}
    {now : World}
    (hold : reads.Hold (onItsOwn (Sound more)) Settled (fun id w => Flagged w id) body now)
    (distinct : (now.db.packages.map (·.id)).Nodup) {arch : Arch}
    (is : arch ∈ (reads.batch body).unchanged) :
    archSlice now.db.packages ((reads.batch body).target now.db) arch =
      archSlice now.db.packages (now.db.ringPackages reads.ring) arch := by
  have packages : now.db.packages = reads.atAdds.db.packages :=
    (((hold.toSeq.trans hold.toBase).trans hold.toLast).trans hold.toNow).packages
  have scopedAdds : ∀ within, reads.removeArch = some within → ∀ id ∈ reads.added,
      ∃ p ∈ now.db.packages, p.id = id ∧ p.repoArch = within := by
    intro within isWithin id isAdded
    rw [hold.added, isWithin] at isAdded
    rw [packages]
    exact mem_addedIds_within isAdded
  -- What is left to show, row by row.
  have suffices_ : ∀ within, arch ≠ within → (reads.batch body).Within now.db within →
      (∀ p ∈ now.db.packages, p.repoArch ≠ within →
        (p.id ∈ reads.base.rows now.db ↔ p.id ∈ now.db.ringPackages reads.ring)) →
      archSlice now.db.packages ((reads.batch body).target now.db) arch =
        archSlice now.db.packages (now.db.ringPackages reads.ring) arch := by
    intro within other isWithin base
    ext id
    simp only [archSlice, Finset.mem_filter, List.any_eq_true, Bool.and_eq_true, beq_iff_eq]
    refine and_congr_left ?_
    rintro ⟨p, member, rfl, rfl⟩
    exact (mem_target_within distinct isWithin member other).trans (base p member other)
  obtain ⟨parent, isParent, untouched⟩ := untouched_of_mem is
  have read := hold.base
  rw [isParent] at read
  cases untouched with
  | own within other isWithin same =>
      refine suffices_ within other (.inl ⟨isWithin, scopedAdds within isWithin⟩) ?_
      intro p _ _
      -- The base is the ring itself: its source, if any, is the parent.
      have base : reads.base = .ring reads.ring := by
        generalize reads.base = b at read
        generalize reads.source = source at read same
        cases read with
        | own _ => rfl
        | same _ => rfl
        | live differs _ => exact absurd (same _ rfl).symm (differs _ rfl)
        | rows differs _ => exact absurd (same _ rfl).symm (differs _ rfl)
      rw [base]
      rfl
  | half within s other isOnly isSource differs touched =>
      have isWithin : (reads.batch body).Within now.db within := by
        rcases touched with isWithin | ⟨noRemove, noRemoveFrom, noAdd⟩
        · exact .inl ⟨isWithin, scopedAdds within isWithin⟩
        · exact .inr ⟨noRemove, noRemoveFrom, noAdd⟩
      refine suffices_ within other isWithin ?_
      intro p member notWithin
      rw [isSource, isOnly] at read
      have base : ∃ inner, reads.base = .oneArch inner within reads.ring := by
        generalize reads.base = b at read
        cases read with
        | same same => exact absurd same.symm differs
        | live _ _ => exact ⟨_, rfl⟩
        | rows _ _ => exact ⟨_, rfl⟩
      obtain ⟨inner, base⟩ := base
      simp [base, Members.rows, Db.mem_select distinct member, notWithin]

end OmarchyPool
