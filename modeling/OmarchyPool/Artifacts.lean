/-
# OmarchyPool.Artifacts -- the databases a render puts, and who awaits them

A database lives at one key per ring, source and architecture, overwritten by every
render; `release_artifacts` says which releases serve it.  `handlePutArtifact` stores the
bytes, makes the release's own row current, gives the row to the first three generations
of descendants that have none, and makes current the rows that awaited this render or the
one its own row awaited.  `handleRendered` drops what a finished render did not put again.
-/
import OmarchyPool.Gc

namespace OmarchyPool

open Lib

set_option autoImplicit false

/-! ## Names and keys -/

/-- `omarchy-<source>-<ring>`: the name of a rendered repository. -/
def repoName (source : String) (ring : Ring) : String := "omarchy-" ++ source ++ "-" ++ ring.name

/-- The source a rendered repository lists: `^omarchy-(.+)-(edge|rc|stable|lab)$`. -/
def sourceOfRepo (repo : String) : Option String :=
  if "omarchy-".toList.isPrefixOf repo.toList then
    (rings.findSome? fun ring =>
      (stripSuffix ('-' :: ring.name.toList) (repo.toList.drop "omarchy-".toList.length)).bind
        fun stem => if stem.isEmpty then none else some stem).map String.ofList
  else none

/-- `^[a-z0-9-]+$`. -/
def isRepoText (repo : String) : Bool :=
  !repo.toList.isEmpty && repo.toList.all fun c => c.isLower || c.isDigit || c == '-'

/-- `<source>/<arch>/<repo>.<kind>`: a database lives in the directory of its source. -/
def artifactKey (source : String) (arch : Arch) (repo : String) (kind : Kind) : String :=
  source ++ "/" ++ arch.name ++ "/" ++ repo ++ "." ++ kind.name

/-! ## Statements on `release_artifacts` -/

namespace Db

def putObject (db : Db) (key : String) (blob : Blob) : Db :=
  { db with bucket := Function.update db.bucket key (some blob) }

/-- `INSERT … ON CONFLICT DO UPDATE SET …, awaits = NULL`. -/
def upsertArtifact (db : Db) (a : Artifact) : Db :=
  if db.hasArtifact a then
    { db with artifacts := db.artifacts.map fun b =>
        if b.releaseId = a.releaseId ∧ b.repo = a.repo ∧ b.arch = a.arch ∧ b.kind = a.kind then a
        else b }
  else { db with artifacts := db.artifacts ++ [a] }

/-- The releases made from any of `ids`, and so on for `fuel` generations. -/
def descend (db : Db) : Nat → List ReleaseId → List ReleaseId
  | 0, _ => []
  | fuel + 1, ids =>
      let children := (db.releases.filter fun r => r.parentId.any (· ∈ ids)).map (·.id)
      children ++ db.descend fuel children

/-- `kin`: three generations of descendants. -/
def kin (db : Db) (release : ReleaseId) : List ReleaseId := db.descend 3 [release]

/-- The descendants that have no such row get it, current. -/
def inherit (db : Db) (a : Artifact) : Db :=
  (db.kin a.releaseId).foldl (fun db id => db.insertArtifact { a with releaseId := id }) db

/-- `AWAITED_SQL`: the rows of one database that awaited a render are current from it. -/
def awaited (db : Db) (release : ReleaseId) (a : Artifact) : Db :=
  { db with artifacts := db.artifacts.map fun b =>
      if b.awaits = some release ∧ b.repo = a.repo ∧ b.arch = a.arch ∧ b.kind = a.kind then
        { b with r2Key := a.r2Key, size := a.size, awaits := none }
      else b }

/-- `OWN_WAIT_SQL`: what the release's own row awaited, unless it is its own render. -/
def ownWait (db : Db) (a : Artifact) : Option ReleaseId :=
  ((db.artifacts.find? fun b =>
    b.releaseId == a.releaseId && b.repo == a.repo && b.arch == a.arch && b.kind == a.kind).bind
      (·.awaits)).filter (· ≠ a.releaseId)

/-- `WAITED_SQL`: the renders a release's carried rows of an architecture still await. -/
def waited (db : Db) (release : ReleaseId) (arch : Arch) : List ReleaseId :=
  ((db.artifactsOf release arch).filterMap (·.awaits)).dedup

/-- `RENDERED_SQL[0]`: the rows the render did not write again. -/
def dropCarried (db : Db) (release : ReleaseId) (arch : Arch) : Db :=
  { db with artifacts := db.artifacts.filter fun a =>
      !(a.releaseId == release && a.arch == arch && a.awaits.isSome) }

/-- `RENDERED_SQL[1]`: the rows still awaiting it. -/
def dropAwaiting (db : Db) (release : ReleaseId) (arch : Arch) : Db :=
  { db with artifacts := db.artifacts.filter fun a =>
      !(a.awaits == some release && a.arch == arch) }

end Db

/-! ## The routes -/

/-- `PUT /releases/:id/artifacts/:kind`; `bytes` is the body, `none` when it has none. -/
structure PutArtifact where
  releaseId : ReleaseId
  kind : Kind
  repo : String
  arch : Option String := none
  bytes : Option Blob
deriving DecidableEq

inductive PutAnswer where
  | superseded
  | stored (keys : List String) (size : Nat)
deriving DecidableEq, Repr

/-- The releases whose wait this put ends: those awaiting it, and those awaiting what its
own row awaited. -/
def makeCurrent (a : Artifact) (before : Option ReleaseId) : Handler Unit := do
  D1.exec .other (·.inherit a)
  D1.exec .other (·.awaited a.releaseId a)
  match before with
  | none => pure ()
  | some before => D1.exec .other (·.awaited before a)

/-- `sign` is the pool's key: `none` when signing is off. -/
def handlePutArtifact (sign : Option (Blob → Blob)) (put : PutArtifact) : Handler PutAnswer := do
  if !isRepoText put.repo then refuse 400 "repo is required (e.g. omarchy-core-stable)" else
  match isRepoArch (put.arch.getD "x86_64") with
  | none => refuse 400 "arch must be x86_64 or aarch64"
  | some arch =>
  match sourceOfRepo put.repo with
  | none => refuse 400 "repo must be omarchy-<source>-<ring>"
  | some source =>
  match put.bytes with
  | none => refuse 400 "empty body"
  | some bytes => do
  match ← D1.query .other (·.release? put.releaseId) with
  | none => refuse 404 "release not found"
  | some _ =>
  -- The pool signs its own databases: a signature a client made is not taken.
  if sign.isSome && put.kind.sig.isNone then pure .superseded else do
  let rowOf (kind : Kind) (key : String) (size : Nat) : Artifact :=
    ⟨put.releaseId, put.repo, arch, kind, key, size, none⟩
  let key := artifactKey source arch put.repo put.kind
  let row := rowOf put.kind key bytes.size
  let (before, sigBefore) ← D1.query .other fun db =>
    (db.ownWait row, put.kind.sig.bind fun sigKind => db.ownWait (rowOf sigKind "" 0))
  D1.exec .other (·.putObject key bytes)
  match sign, put.kind.sig with
  | some sign, some sigKind => do
      let sigKey := artifactKey source arch put.repo sigKind
      let sig := sign bytes
      D1.exec .other (·.putObject sigKey sig)
      D1.exec .other (·.upsertArtifact (rowOf sigKind sigKey sig.size))
      D1.exec .other (·.upsertArtifact row)
      makeCurrent row before
      makeCurrent (rowOf sigKind sigKey 0) sigBefore
      pure (.stored [key, sigKey] bytes.size)
  | _, _ => do
      D1.exec .other (·.upsertArtifact row)
      makeCurrent row before
      pure (.stored [key] bytes.size)

/-- `POST /releases/:id/rendered?arch=`: how many rows it dropped. -/
def handleRendered (releaseId : ReleaseId) (archText : String) : Handler Nat := do
  match isRepoArch archText with
  | none => refuse 400 "arch must be x86_64 or aarch64"
  | some arch => do
      let waited ← D1.query .other (·.waited releaseId arch)
      let awaited := releaseId :: waited.filter (· ≠ releaseId)
      let drop (db : Db) : Db :=
        awaited.foldl (fun db id => db.dropAwaiting id arch) (db.dropCarried releaseId arch)
      D1.returning .other drop fun db => db.artifacts.length - (drop db).artifacts.length

end OmarchyPool
