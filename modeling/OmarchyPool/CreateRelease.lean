/-
# OmarchyPool.CreateRelease -- `POST /releases`

`handleCreateRelease` reads what the new release starts from, one statement at a time --
the source, the ring's head, the adds, the next seq, the base -- and then writes the
release in one batch.  The reads are not part of the batch: everything it needs of them
is in the `CreateBatch` it is bound with, except the rows of the base and of the ring,
which the batch reads itself when it runs.
-/
import OmarchyPool.Checkpoint

namespace OmarchyPool

open Lib

set_option autoImplicit false

/-! ## The batch -/

namespace CreateBatch

/-- `rm`: a name being removed, from every source or from one, within `remove_arch`. -/
def removes (b : CreateBatch) (p : Package) : Bool :=
  (b.remove.contains p.name || b.removeFrom.contains (p.source, p.name)) &&
    b.removeArch.all (· == p.repoArch)

/-- `addnames`: an added package of the same source, name and architecture. -/
def replaces (b : CreateBatch) (db : Db) (p : Package) : Bool :=
  db.packages.any fun q => b.added.contains q.id && q.slot == p.slot

/-- The target selection: the base without what is removed or replaced, and the adds. -/
def target (b : CreateBatch) (db : Db) : Finset PackageId :=
  db.select (b.base.rows db) (fun p => !b.removes p && !b.replaces db p) ∪ b.added.toFinset

/-- The row of `releases` the batch inserts. -/
def row (b : CreateBatch) (id : ReleaseId) : Release where
  id := id
  ring := b.ring
  seq := b.seq
  parentId := b.parent
  sourceId := b.source
  note := b.note
  checkpoint := b.checkpoint
  packageCount := none
  bytes := none
  sources := none

end CreateBatch

namespace Db

/-- `anc`: a release and its ancestors, the nearest first, `fuel` generations up. -/
def ancestors (db : Db) : Nat → ReleaseId → List ReleaseId
  | 0, id => [id]
  | fuel + 1, id =>
      id :: match (db.release? id).bind (·.parentId) with
        | some parent => db.ancestors fuel parent
        | none => []

def artifactsOf (db : Db) (release : ReleaseId) (arch : Arch) : List Artifact :=
  db.artifacts.filter fun a => a.releaseId == release && a.arch == arch

/-- `bare`: the release holds no package of the architecture. -/
def bare (db : Db) (release : ReleaseId) (arch : Arch) : Bool :=
  ((db.release? release).bind (·.sources)).any fun sources => sources.all (·.arch != arch)

/-- `best`: how far up the nearest ancestor is that has rows of the architecture, or
holds no package of it. -/
def carryDepth (db : Db) (anc : List ReleaseId) (arch : Arch) : Option Nat :=
  anc.findIdx? fun id => !(db.artifactsOf id arch).isEmpty || db.bare id arch

/-- The rows a new release carries for one architecture.  `awaits` says whose render makes
a row current: the release's own when it changed the architecture; for one it kept, the
parent's row's, or the parent's when the rows come from further back. -/
def carriedOf (db : Db) (id parent : ReleaseId) (unchanged : List Arch) (arch : Arch) :
    List Artifact :=
  let anc := db.ancestors 12 parent
  match db.carryDepth anc arch with
  | none => []
  | some depth =>
      (db.artifactsOf (anc.getD depth parent) arch).map fun a =>
        { a with
          releaseId := id
          awaits := if arch ∉ unchanged then some id else if depth = 0 then a.awaits else some parent }

def carried (db : Db) (id : ReleaseId) (parent : Option ReleaseId) (unchanged : List Arch) :
    List Artifact :=
  match parent with
  | none => []
  | some parent => repoArches.flatMap (db.carriedOf id parent unchanged)

def hasArtifact (db : Db) (a : Artifact) : Bool :=
  db.artifacts.any fun b =>
    b.releaseId == a.releaseId && b.repo == a.repo && b.arch == a.arch && b.kind == a.kind

/-- `INSERT OR IGNORE INTO release_artifacts`. -/
def insertArtifact (db : Db) (a : Artifact) : Db :=
  if db.hasArtifact a then db else { db with artifacts := db.artifacts ++ [a] }

/-- The batch's statements on a store that takes its `(ring, seq)`. -/
def applyRelease (db : Db) (b : CreateBatch) : Db :=
  let id := db.nextRelease
  let own := db.ringPackages b.ring
  let delta := Delta.between own (b.target db)
  let rows := delta.apply own
  let inserted : Db :=
    { db with
      releases := db.releases ++ [b.row id]
      nextRelease := id + 1
      releaseDeltas := Function.update db.releaseDeltas id delta
      ringPackages := Function.update db.ringPackages b.ring rows
      ringHeads := Function.update db.ringHeads b.ring (some id)
      releasePackages :=
        if b.checkpoint then
          Function.update db.releasePackages id (db.releasePackages id ∪ rows)
        else db.releasePackages }
  (inserted.carried id b.parent b.unchanged).foldl insertArtifact inserted

/-- The batch as one transaction: `UNIQUE (ring, seq)` fails it whole. -/
def createRelease (b : CreateBatch) (db : Db) : Except Failure Db :=
  if (db.ofRing b.ring).any (·.seq == b.seq) then
    .error (.constraint "UNIQUE constraint failed: releases.ring, releases.seq")
  else .ok (db.applyRelease b)

end Db

/-! ## The request -/

structure CreateRelease where
  ring : String
  fromRing : Option String := none
  fromReleaseId : Option ReleaseId := none
  add : List String := []
  remove : List String := []
  /-- `(source, name)` pairs. -/
  removeFrom : List (String × String) := []
  removeArch : Option String := none
  arch : Option String := none
  note : Option String := none
deriving DecidableEq, Repr

structure Created where
  release : Release
  summary : Summary
  unchangedArches : List Arch
deriving DecidableEq, Repr

/-- The release a promotion or a rollback starts from. -/
def resolveSource (ring : Ring) (body : CreateRelease) : Handler (Option Release) :=
  match body.fromReleaseId, body.fromRing with
  | some releaseId, _ => do
      match ← D1.query .other (·.release? releaseId) with
      | none => refuse 404 s!"release {releaseId} does not exist"
      | some source =>
          if source.ring = .lab ∧ ring ≠ .lab then
            refuse 400 "a lab release is never the base of another ring: the lab is tried, not promoted"
          else if source.ring ≠ ring then
            refuse 400 s!"release {source.id} is {source.ring.name}'s: a rollback points {ring.name} at an earlier release of its own; a ring moves up by a promotion (from_ring)"
          else pure (some source)
  | none, some fromRing =>
      match isRing fromRing with
      | none => refuse 400 "from_ring must be edge, rc or stable"
      | some fromRing =>
          if fromRing = .lab ∨ ring = .lab then
            refuse 400 "the lab is never promoted from or into: a build reaches edge by a maintainer's approval (the publish job)"
          else do
            match ← D1.query .other (·.ringHead fromRing) with
            | none => refuse 409 s!"ring {fromRing.name} has no release to promote"
            | some source => pure (some source)
  | none, none => pure none

/-- An optional architecture of the body, refused when it is not one. -/
def readArch (text : Option String) (error : String) : Handler (Option Arch) :=
  match text with
  | none => pure none
  | some text =>
      match isRepoArch text with
      | none => refuse 400 error
      | some arch => pure (some arch)

/-- An entry of `add`: `<sha256>`, or `<sha256>/<arch>`. -/
structure Wanted where
  entry : String
  sha : String
  arch : Option String
deriving DecidableEq, Repr

/-- `String(entry).split("/", 2)`. -/
def Wanted.ofEntry (entry : String) : Wanted :=
  let sha := entry.toList.takeWhile (· ≠ '/')
  let rest := entry.toList.dropWhile (· ≠ '/')
  { entry, sha := String.ofList sha
    arch := match rest with
      | [] => none
      | _ :: tail => some (String.ofList (tail.takeWhile (· ≠ '/'))) }

/-- `ADD_ROWS_SQL`, or `ADD_ROWS_OF_ARCH_SQL` within `remove_arch`. -/
def Db.addRows (db : Db) (shas : List String) (removeArch : Option Arch) : List Package :=
  db.packages.filter fun p => shas.contains p.sha256 && removeArch.all (· == p.repoArch)

/-- The rows found for one entry. -/
def Wanted.rowsOf (w : Wanted) (found : List Package) : List Package :=
  found.filter fun p => p.sha256 == w.sha && w.arch.all (· == p.repoArch.name)

/-- The package ids `add` names. -/
def resolveAdds (add : List String) (removeArch : Option Arch) : Handler (List PackageId) := do
  let wanted := add.map Wanted.ofEntry
  let found ← if add.isEmpty then pure []
    else D1.query .other (·.addRows (wanted.map (·.sha)) removeArch)
  let missing := (wanted.filter fun w => (w.rowsOf found).isEmpty).map (·.entry)
  if missing.isEmpty then
    pure (wanted.flatMap fun w => (w.rowsOf found).map (·.id)).eraseDups
  else
    refuse 404 ("packages not indexed: " ++ ", ".intercalate (missing.take 5) ++
      if missing.length > 5 then "…" else "")

/-- Where the selection starts: the ring's own live rows, another ring's, or an older
release's checkpoint rows, with one architecture only when asked. -/
def baseSql (ring : Ring) (source parent : Option Release) (onlyArch : Option Arch) :
    Handler Members :=
  match source with
  | some source =>
      if parent.any (·.id == source.id) then pure (.ring ring)
      else do
        let base ← match ← D1.query .other (·.headRing? source.id) with
          | some asHead => pure (Members.ring asHead)
          | none => do
              ensureCheckpoint source.id
              pure (Members.release source.id)
        match onlyArch, parent with
        | some arch, some _ => pure (.oneArch base arch ring)
        | _, _ => pure base
  | none => pure (if parent.isSome then .ring ring else .none)

/-- The architectures the request could not have touched: the caller is told not to
render them again, and the release keeps their databases' state. -/
def unchangedArches (body : CreateRelease) (source parent : Option Release)
    (removeArch onlyArch : Option Arch) (added : List PackageId) : List Arch :=
  let untouched := body.remove.isEmpty && body.removeFrom.isEmpty && added.isEmpty
  let base := source.or parent
  let within :=
    if parent.isSome && base.map (·.id) == parent.map (·.id) then removeArch
    else if onlyArch.isSome && (untouched || removeArch == onlyArch) then onlyArch
    else none
  match parent, within with
  | some _, some within => repoArches.filter (· ≠ within)
  | _, _ => []

def handleCreateRelease (body : CreateRelease) : Handler Created := do
  match isRing body.ring with
  | none => refuse 400 "ring must be edge, rc, stable or lab"
  | some ring => do
      let source ← resolveSource ring body
      let parent ← D1.query .other (·.ringHead ring)
      let removeArch ← readArch body.removeArch "remove_arch must be x86_64 or aarch64"
      let added ← resolveAdds body.add removeArch
      let seq ← D1.query (.nextSeq ring (parent.map (·.id))) fun db => db.maxSeq ring + 1
      let onlyArch ← readArch body.arch "arch must be x86_64 or aarch64"
      if onlyArch.isSome && source.isNone then
        refuse 400 "arch goes with from_ring or from_release_id"
      else do
        let base ← baseSql ring source parent onlyArch
        let last ← D1.query .other (·.lastCheckpoint ring)
        let unchanged := unchangedArches body source parent removeArch onlyArch added
        let batch : CreateBatch :=
          { ring, seq, base, removeArch, added, unchanged
            parent := parent.map (·.id)
            source := source.map (·.id)
            note := body.note
            remove := body.remove
            removeFrom := body.removeFrom
            checkpoint := parent.isNone || seq - last ≥ checkpointEvery }
        D1.batch (.create batch) (·.createRelease batch)
        -- Immutable from here: what it holds is computed once and kept on the row.
        match ← D1.query .other (fun db => (db.ofRing ring).find? (·.seq == seq)) with
        | none => raise "Cannot read properties of null (reading 'id')"
        | some created => do
            let summary ← releaseSummary created.id
            let _ ← releaseSources created.id
            match ← D1.query .other (·.release? created.id) with
            | none => raise s!"release {created.id} does not exist"
            | some release => pure ⟨release, summary, unchanged⟩

end OmarchyPool
