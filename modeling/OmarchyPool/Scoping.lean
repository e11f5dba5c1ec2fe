/-
# OmarchyPool.Scoping -- one architecture of a ring

A request with `arch` moves one architecture of a ring: the source's rows of it replace the ring's,
the other architecture keeps what the ring serves.  Every request answers with the architectures it
left as they were.  `Scoped` says both of an answer.

The second is always so (`scoped_unchanged`).  The first rests on the base, which leaves the other
architecture to the ring only when the ring has a head (`scopeTo`): the first release of a ring takes
it from the source (`scoped_iff`).
-/
import OmarchyPool.Carry
import OmarchyPool.Promotion
import OmarchyPool.Tally

namespace OmarchyPool

open Lib

set_option autoImplicit false

/-! ## What a request answers about -/

theorem Recounted.follows {w w' : World} (recounted : Recounted w w') : Follows w w' where
  keeps :=
    { known := by
        rintro r ⟨row, member, eq⟩
        obtain ⟨row', member', eq'⟩ := recounted.releases.exists_fixed member
        exact ⟨row', member', eq'.trans eq⟩
      selection := fun r _ => by rw [recounted.selection] }
  grown := fun ring => by rw [recounted.releases.ofRing_id]
  ordered := recounted.releases.ordered

/-- A request that answered: the batch it made its release with, and what came of it. -/
structure Made (packages : List Package) (body : CreateRelease) (w : World) (created : Created)
    (w' : World) (reads : Reads) (now : World) : Prop where
  hold : reads.Hold (onItsOwn (Sound (Tallied packages))) Settled (fun id w => Flagged w id) body now
  settled : Settled w now
  sound : Sound (Tallied packages) now
  parent : (reads.batch body).parent = now.db.ringHeads reads.ring
  fixed : created.release.fixed = ((reads.batch body).row now.db.nextRelease).fixed
  unchanged : created.unchangedArches = (reads.batch body).unchanged
  target : w'.selection created.release.id = (reads.batch body).target now.db
  older : ∀ r, Known w r → w'.selection r.id = w.selection r.id

theorem made_alone {packages : List Package} (distinct : (packages.map (·.id)).Nodup)
    {body : CreateRelease} {w w' : World} {created : Created} (sound : Sound (Tallied packages) w)
    (ran : (handleCreateRelease body).run w = (.ok created, w')) :
    ∃ reads now, Made packages body w created w' reads now := by
  have survives := tallied_survives distinct
  have spec := create_spec (sound_serves survives) body ?_ sound
  · obtain ⟨-, -, answers⟩ := Program.run_spec (c := onItsOwn (Sound (Tallied packages)))
      (fun _ => rfl) (fun _ _ => trivial) sound spec
    rw [ran] at answers
    obtain ⟨reads, now, db', hold, settled, ⟨floor, inv, tallied⟩, -, done, answered⟩ :=
      answers created rfl
    obtain ⟨next, parent, rfl⟩ := batch_alone hold inv done
    have followed : Answered Follows (reads.batch body)
        (now.commit (now.db.applyRelease (reads.batch body))) created w' := by
      obtain ⟨⟨w₁, w₂, made₁, moved₂, moved, row⟩, unchanged⟩ := answered
      exact ⟨⟨w₁, w₂, made₁.follows, moved₂.follows, moved.follows, row⟩, unchanged⟩
    obtain ⟨later, fixed⟩ := answered_row inv.ordered next followed
    have made := Keeps.create inv.ordered (reads.batch body)
    refine ⟨reads, now, hold, settled, ⟨floor, inv, tallied⟩, parent, fixed, followed.unchanged, ?_, ?_⟩
    · have isNew : created.release.id = now.db.nextRelease := Release.id_eq fixed
      have known : Known (now.commit (now.db.applyRelease (reads.batch body)))
          ((reads.batch body).row now.db.nextRelease) := Known.of_mem (by simp)
      have same := later.keeps.selection _ known
      rw [show ((reads.batch body).row now.db.nextRelease).id = now.db.nextRelease from rfl] at same
      rw [isNew, same, World.commit_selection_applyRelease inv.ordered, Function.update_self]
    · intro r known
      have here := settled.follows.keeps.known r known
      rw [later.keeps.selection r (made.known r here), made.selection r here,
        settled.follows.keeps.selection r known]
  · rintro reads now hold - ⟨floor, inv, tallied⟩ - db' done
    obtain ⟨next, parent, rfl⟩ := batch_alone hold inv done
    exact ⟨⟨floor, inv.create next parent,
      tallied_create packages body floor reads now hold inv tallied next parent⟩, trivial⟩

/-! ## Slices of a batch's target -/

theorem mem_archSlice {index : List Package} {ids : Finset PackageId} {arch : Arch} {id : PackageId} :
    id ∈ archSlice index ids arch ↔ id ∈ ids ∧ ∃ p ∈ index, p.id = id ∧ p.repoArch = arch := by
  simp [archSlice]

/-- A batch that names no package takes of an architecture what its base has of it. -/
theorem slice_of_plain {db : Db} (distinct : (db.packages.map (·.id)).Nodup) {b : CreateBatch}
    (plain : b.plain = true) (arch : Arch) :
    archSlice db.packages (b.target db) arch = archSlice db.packages (b.base.rows db) arch := by
  simp only [CreateBatch.plain, Bool.and_eq_true, List.isEmpty_iff] at plain
  obtain ⟨⟨noRemove, noRemoveFrom⟩, noAdd⟩ := plain
  ext id
  simp only [mem_archSlice]
  refine and_congr_left ?_
  rintro ⟨p, member, rfl, rfl⟩
  -- any other architecture bounds a batch that names nothing
  obtain ⟨within, other⟩ : ∃ within, p.repoArch ≠ within := by
    cases p.repoArch with
    | x86_64 => exact ⟨.aarch64, by decide⟩
    | aarch64 => exact ⟨.x86_64, by decide⟩
  exact mem_target_within distinct (.inr ⟨noRemove, noRemoveFrom, noAdd⟩) member other

/-- One architecture of a base beside the ring's other. -/
theorem slice_oneArch {db : Db} (distinct : (db.packages.map (·.id)).Nodup) (base : Members)
    (arch : Arch) (own : Ring) (other : Arch) :
    archSlice db.packages ((Members.oneArch base arch own).rows db) other =
      if other = arch then archSlice db.packages (base.rows db) other
      else archSlice db.packages (db.ringPackages own) other := by
  ext id
  split
  · rename_i same
    subst same
    simp only [mem_archSlice]
    refine and_congr_left ?_
    rintro ⟨p, member, rfl, rfl⟩
    simp [Members.rows, Db.mem_select distinct member]
  · rename_i differs
    simp only [mem_archSlice]
    refine and_congr_left ?_
    rintro ⟨p, member, rfl, rfl⟩
    simp [Members.rows, Db.mem_select distinct member, differs]

/-! ## What an answer promises -/

/-- The release `from_release_id` or `from_ring` names. -/
def CreateRelease.sourceIn (body : CreateRelease) (db : Db) : Option ReleaseId :=
  match body.fromReleaseId, body.fromRing with
  | some id, _ => some id
  | none, some name => (isRing name).bind db.ringHeads
  | none, none => none

/-- The request names no package. -/
def CreateRelease.namesNone (body : CreateRelease) : Bool :=
  body.add.isEmpty && body.remove.isEmpty && body.removeFrom.isEmpty

/-- What a ring serves: nothing before its first release. -/
def Db.serves (db : Db) (ring : Ring) : Finset PackageId :=
  if (db.ringHeads ring).isSome then db.ringPackages ring else ∅

/-- The packages of an architecture, of those the index holds. -/
def World.slice (w : World) (ids : Finset PackageId) (arch : Arch) : Finset PackageId :=
  archSlice w.db.packages ids arch

/-- The release of an answer keeps to the architecture the request gave, and the architectures the
answer calls unchanged are the parent's. -/
structure Scoped (body : CreateRelease) (w : World) (created : Created) (w' : World) : Prop where
  half : ∀ text arch, body.arch = some text → isRepoArch text = some arch → body.namesNone = true →
    ∃ source, body.sourceIn w.db = some source ∧
      w.slice (w'.selection created.release.id) arch = w.slice (w.selection source) arch ∧
      ∀ other, other ≠ arch →
        w.slice (w'.selection created.release.id) other = w.slice (w.db.serves created.release.ring) other
  unchanged : ∀ arch ∈ created.unchangedArches, ∃ parent, created.release.parentId = some parent ∧
    w.slice (w'.selection created.release.id) arch = w.slice (w'.selection parent) arch

/-- The ring the request is for has a release, or the source has no package of another architecture
than the one asked for. -/
def LeavesOther (body : CreateRelease) (w : World) : Prop :=
  ∀ text arch ring, body.arch = some text → isRepoArch text = some arch → body.namesNone = true →
    isRing body.ring = some ring → (w.db.ringHeads ring).isSome ∨
      ∀ source, body.sourceIn w.db = some source → ∀ other, other ≠ arch → w.slice (w.selection source) other = ∅

section Answer

variable {packages : List Package} (distinct : (packages.map (·.id)).Nodup) {body : CreateRelease}
  {w w' : World} {created : Created} {reads : Reads} {now : World}
  (made : Made packages body w created w' reads now)
include made

theorem Made.heads : reads.atSource.db.ringHeads = w.db.ringHeads := by
  have toNow := ((((made.hold.toParent.trans made.hold.toAdds).trans made.hold.toSeq).trans
    made.hold.toBase).trans made.hold.toLast).trans made.hold.toNow
  rw [← made.settled.releases.heads, toNow.releases.heads]

theorem Made.parent_isSome : reads.parent.isSome = (w.db.ringHeads reads.ring).isSome := by
  have parent := made.parent
  rw [made.settled.releases.heads] at parent
  rw [← parent]
  simp [Reads.batch]

/-- The source that was read is the one the request names. -/
theorem Made.sourceIn : body.sourceIn w.db = reads.source.map (·.id) := by
  have read := made.hold.source
  generalize reads.source = source at read
  cases read with
  | none noId noRing => simp [CreateRelease.sourceIn, noId, noRing]
  | @release id source named found _ =>
      have same : source.id = id := by simpa using List.find?_some found
      simp [CreateRelease.sourceIn, named, same]
  | @head name fromRing source noId named parsed _ _ found =>
      obtain ⟨id, isHead, row⟩ := Option.bind_eq_some_iff.mp found
      have same : source.id = id := by simpa using List.find?_some row
      rw [made.heads] at isHead
      simp [CreateRelease.sourceIn, noId, named, parsed, isHead, same]

include distinct in
theorem Made.nodup : (now.db.packages.map (·.id)).Nodup := by
  obtain ⟨_, _, tallied⟩ := made.sound
  exact distinct.sublist (tallied.fewer.map _)

include distinct in
/-- Of the architecture asked for the base is the source, of the other the ring, if it has a head. -/
theorem Made.base {arch : Arch} (only : reads.onlyArch = some arch) {source : Release}
    (isSource : reads.source = some source) (other : Arch) :
    archSlice now.db.packages (reads.base.rows now.db) other =
      if other ≠ arch ∧ reads.parent.isSome then archSlice now.db.packages (w.db.ringPackages reads.ring) other
      else archSlice now.db.packages (w.selection source.id) other := by
  obtain ⟨floor, inv, -⟩ := made.sound
  have toNow := (made.hold.toLast.trans made.hold.toNow)
  have live := made.settled.ringPackages
  have selection := made.settled.selection
  -- a base that lists the source, with the ring's other architecture beside it when there is a head
  have listed : ∀ members, Listed now source.id members →
      archSlice now.db.packages ((scopeTo (some arch) reads.parent reads.ring members).rows now.db) other =
        if other ≠ arch ∧ reads.parent.isSome then
          archSlice now.db.packages (w.db.ringPackages reads.ring) other
        else archSlice now.db.packages (w.selection source.id) other := by
    intro members lists
    have rows : members.rows now.db = w.selection source.id := by
      rw [inv.rows_of_listed lists, selection]
    cases reads.parent with
    | none => simp [scopeTo, rows]
    | some parent =>
        rw [scopeTo, slice_oneArch (made.nodup distinct), rows, live]
        by_cases same : other = arch
        · simp [same]
        · simp [same]
  have base := made.hold.base
  rw [only, isSource] at base
  generalize isParent : reads.parent = parent at base listed
  generalize reads.base = read at base
  cases base with
  | @same _ parent sameId =>
      have head : now.db.ringHeads reads.ring = some source.id := by
        rw [← made.parent, Reads.batch, isParent, Option.map_some, sameId]
      have rows : w.db.ringPackages reads.ring = w.selection source.id := by
        rw [← live, inv.live _ _ head, selection]
      rw [Members.rows, live, rows, ite_self]
  | live _ found =>
      have head := toNow.releases.heads
      refine listed _ (.live ?_)
      rw [head]
      simpa using List.find?_some found
  | rows _ flagged => exact listed _ (.rows (toNow.flags _ flagged))

theorem Made.slice (ids : Finset PackageId) (arch : Arch) :
    w.slice ids arch = archSlice now.db.packages ids arch := by
  rw [World.slice, made.settled.packages]

theorem Made.ring_eq : created.release.ring = reads.ring := Release.ring_eq made.fixed

theorem Made.parentId_eq : created.release.parentId = w.db.ringHeads reads.ring := by
  rw [Release.parentId_eq made.fixed, ← made.settled.releases.heads]
  exact made.parent

include distinct in
/-- The release of a request that gave an architecture and named no package, slice by slice. -/
theorem Made.half {text : String} {arch : Arch} (asked : body.arch = some text)
    (isArch : isRepoArch text = some arch) (none : body.namesNone = true) :
    ∃ source, body.sourceIn w.db = some source ∧ ∀ other,
      w.slice (w'.selection created.release.id) other =
        if other ≠ arch ∧ (w.db.ringHeads reads.ring).isSome then w.slice (w.db.ringPackages reads.ring) other
        else w.slice (w.selection source) other := by
  have only : reads.onlyArch = some arch := (made.hold.onlyArch text asked).trans isArch
  obtain ⟨source, isSource⟩ := Option.isSome_iff_exists.mp (made.hold.sourced (by simp [only]))
  refine ⟨source.id, by rw [made.sourceIn, isSource, Option.map_some], fun other => ?_⟩
  have plain : (reads.batch body).plain = true := by
    simp only [CreateRelease.namesNone, Bool.and_eq_true, List.isEmpty_iff] at none
    obtain ⟨⟨noAdd, noRemove⟩, noRemoveFrom⟩ := none
    have noAdded : reads.added = [] := by
      rw [made.hold.added, noAdd]
      rfl
    simp [CreateBatch.plain, Reads.batch, noAdded, noRemove, noRemoveFrom]
  rw [made.slice, made.slice, made.slice, made.target, slice_of_plain (made.nodup distinct) plain,
    ← made.parent_isSome]
  exact made.base distinct only isSource other

include distinct in
/-- An architecture an answer calls unchanged is the parent's. -/
theorem Made.unchanged_parent {arch : Arch} (is : arch ∈ created.unchangedArches) :
    ∃ parent, created.release.parentId = some parent ∧
      w.slice (w'.selection created.release.id) arch = w.slice (w'.selection parent) arch := by
  obtain ⟨floor, inv, -⟩ := made.sound
  rw [made.unchanged] at is
  obtain ⟨parent, isParent, -⟩ := untouched_of_mem is
  have head : now.db.ringHeads reads.ring = some parent.id := by
    rw [← made.parent, Reads.batch, isParent, Option.map_some]
  obtain ⟨row, member, sameId, -⟩ := inv.ordered.head_row head
  have known : Known w row := by
    obtain ⟨row', member', eq⟩ :=
      made.settled.releases.symm.exists_fixed (Db.mem_ofRing.mp member).1
    exact ⟨row', member', eq⟩
  refine ⟨parent.id, ?_, ?_⟩
  · rw [made.parentId_eq, ← made.settled.releases.heads, head]
  · rw [made.slice, made.slice, made.target, target_unchanged made.hold (made.nodup distinct) is,
      inv.live _ _ head, made.settled.selection, ← sameId, made.older row known]

end Answer

/-- A request that answers keeps to the architecture it was given exactly when its ring has a release
or its source has nothing of the other; and what it calls unchanged is the parent's. -/
theorem scoped_iff {packages : List Package} {bucket : String → Option Blob}
    (distinct : (packages.map (·.id)).Nodup) {w : World}
    (reached : Sequence Op.serve (fun _ _ => True) (World.fresh packages bucket) w)
    {body : CreateRelease} {created : Created} (ran : ((handleCreateRelease body).run w).1 = .ok created) :
    Scoped body w created ((handleCreateRelease body).run w).2 ↔ LeavesOther body w := by
  obtain ⟨reads, now, made⟩ := made_alone distinct (tallied_of_sequence distinct reached)
    (Prod.ext ran rfl)
  constructor
  · intro answer text arch ring asked isArch none isRing
    obtain rfl : reads.ring = ring := Option.some.inj (made.hold.ring.symm.trans isRing)
    by_cases head : (w.db.ringHeads reads.ring).isSome
    · exact .inl head
    · refine .inr fun source named other differs => ?_
      obtain ⟨source', named', -, others⟩ := answer.half text arch asked isArch none
      obtain ⟨source'', named'', slices⟩ := made.half distinct asked isArch none
      obtain rfl := Option.some.inj (named.symm.trans named'')
      -- with no head the other architecture is the source's, and what the ring served is nothing
      have served := others other differs
      rw [slices other, if_neg fun both => head both.2, made.ring_eq, Db.serves, if_neg head] at served
      rw [served]
      rfl
  · intro leaves
    refine ⟨?_, fun arch is => made.unchanged_parent distinct is⟩
    intro text arch asked isArch none
    obtain ⟨source, named, slices⟩ := made.half distinct asked isArch none
    refine ⟨source, named, ?_, fun other differs => ?_⟩
    · rw [slices arch, if_neg fun both => both.1 rfl]
    · rw [slices other, made.ring_eq, Db.serves]
      by_cases head : (w.db.ringHeads reads.ring).isSome
      · rw [if_pos ⟨differs, head⟩, if_pos head]
      · rw [if_neg fun both => head both.2, if_neg head]
        rcases leaves text arch reads.ring asked isArch none made.hold.ring with has | nothing
        · exact absurd has head
        · rw [nothing source named other differs]
          rfl

def scopingIndex : List Package :=
  [.sample 1 'a' "core" "bash", .sample 2 'b' "core" "curl" "1.0-1" .aarch64,
    .sample 3 'c' "core" "bash" "1.1-1"]

/-- Edge's first release, of both architectures. -/
def edgeOfBoth : Op := .create { ring := "edge", add := [Package.sampleHash 'a', Package.sampleHash 'b'] }

/-- It is promoted to rc, and edge takes a new x86_64 package. -/
def rcServes : List Op :=
  [edgeOfBoth, .create { ring := "rc", fromRing := some "edge" },
    .create { ring := "edge", add := [Package.sampleHash 'c'], remove := ["curl"] }]

/-- One architecture of edge to rc. -/
def halfToRc : CreateRelease := { ring := "rc", fromRing := some "edge", arch := some "x86_64" }

def halfOfRc : Created :=
  ⟨⟨4, .rc, 2, some 2, some 3, none, false, some 2, some 2,
    some [⟨"core", .aarch64, 1, 1⟩, ⟨"core", .x86_64, 1, 1⟩]⟩, ⟨2, 2⟩, [.aarch64]⟩

theorem scoped_iff_rcServes :
    ∃ w, Sequence Op.serve (fun _ _ => True) (World.fresh scopingIndex fun _ => none) w ∧
      ((handleCreateRelease halfToRc).run w).1 = .ok halfOfRc ∧
      Scoped halfToRc w halfOfRc ((handleCreateRelease halfToRc).run w).2 := by
  have reached : Sequence Op.serve (fun _ _ => True) (World.fresh scopingIndex fun _ => none) _ :=
    Runs.start.steps rcServes (by decide)
  refine ⟨_, reached, by decide, (scoped_iff (by decide) reached (by decide)).mpr ?_⟩
  intro text arch ring asked isArch none isRc
  obtain rfl : Ring.rc = ring := Option.some.inj isRc
  exact .inl (by decide)

def halfFirst : Created :=
  ⟨⟨2, .rc, 1, none, some 1, none, true, some 2, some 2,
    some [⟨"core", .aarch64, 1, 1⟩, ⟨"core", .x86_64, 1, 1⟩]⟩, ⟨2, 2⟩, []⟩

/-- The x86_64 half of edge makes rc's first release, which serves edge's aarch64 too. -/
theorem half_first_takes_both :
    ¬ ∀ (packages : List Package), (packages.map (·.id)).Nodup → ∀ (bucket : String → Option Blob)
      (w : World), Sequence Op.serve (fun _ _ => True) (World.fresh packages bucket) w →
      ∀ (body : CreateRelease) (created : Created),
        ((handleCreateRelease body).run w).1 = .ok created →
        Scoped body w created ((handleCreateRelease body).run w).2 := by
  intro law
  have reached : Sequence Op.serve (fun _ _ => True) (World.fresh scopingIndex fun _ => none) _ :=
    Runs.start.steps [edgeOfBoth] (by decide)
  have answer := law scopingIndex (by decide) (fun _ => none) _ reached halfToRc halfFirst (by decide)
  obtain ⟨source, -, -, others⟩ := answer.half "x86_64" .x86_64 rfl (by decide) rfl
  exact absurd (others .aarch64 nofun) (by decide)

end OmarchyPool
