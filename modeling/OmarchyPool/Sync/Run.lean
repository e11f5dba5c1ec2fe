/-
# OmarchyPool.Sync.Run -- one upstream repository brought into a ring

`run` reads the upstream database, asks the index what it has by content and by filename, imports what is
missing, and asks for a release that pins every upstream package the index then has and drops what upstream
dropped; where the ring serves exactly this selection it asks for none.

A package upstream rebuilt under a filename the pool holds collides: the stored object is pinned in its place.
What downloading, verifying and extracting a package gives is the parameter `imports`; the imports of a run are
indexed in the order of the database.  The journal's line is left out.
-/
import OmarchyPool.CreateRelease

namespace OmarchyPool.Sync

open OmarchyPool.Lib

set_option autoImplicit false

/-! ## The data -/

structure UpstreamPackage where
  name : String
  version : String
  filename : String
  sha256 : String
  sizeDownload : Nat
deriving DecidableEq, Repr

structure SyncOptions where
  source : String
  arch : Arch
  ring : Ring
  limit : Nat
  dryRun : Bool
  deferTo : List String
  deferRelease : Bool
deriving DecidableEq

/-- What the manifest of an archive says besides its hash and its filename. -/
structure Manifest where
  name : String
  version : String
deriving DecidableEq, Repr

structure SyncReport where
  upstreamTotal : Nat := 0
  alreadyIndexed : Nat := 0
  uploaded : Nat := 0
  failed : List (String × String) := []
  removed : Nat := 0
  bytesUploaded : Nat := 0
  release : Option (ReleaseId × Nat) := none
  unchangedArches : List Arch := []
  deferred : Nat := 0
  yielded : Nat := 0
  collisions : List (String × String) := []
  pendingAdd : List String := []
  pendingRemove : List (String × String) := []
deriving DecidableEq

/-! ## What the index answers -/

/-- `GET /releases/<ring>?fields=summary`, its pages put together: the rows of the ring's head, in the order listed. -/
def releaseSummaryOf (db : Db) (ring : Ring) : Option (List Package) :=
  (db.ringHead ring).map fun _ => db.rowsInOrder (db.ringPackages ring) none

/-- `KNOWN_SQL`: the row of these bytes for the architecture. -/
def indexed (db : Db) (sha256 : String) (arch : Arch) : Bool :=
  db.packages.any fun q => q.sha256 == sha256 && q.repoArch == arch

/-- A row whose bytes the pool never held. -/
def isGhost (q : Package) : Bool := !(q.r2Key.any fun key => !("ghost/".toList.isPrefixOf key.toList))

/-- `by_filename`: of the rows behind a filename of the source and architecture the first indexed. -/
def byFilename (db : Db) (source : String) (arch : Arch) (filename : String) : Option String :=
  if filename.length < 300 then
    ((db.packages.filter fun q => q.source == source && q.repoArch == arch && q.filename == filename && !isGhost q).insertionSort
      fun a b => a.id ≤ b.id).head?.map (·.sha256)
  else none

def postedRow (db : Db) (source : String) (arch : Arch) (p : UpstreamPackage) (m : Manifest) : Package where
  id := (db.packages.map (·.id)).foldr max 0 + 1
  sha256 := p.sha256
  name := m.name
  version := m.version
  repoArch := arch
  source := source
  filename := p.filename
  sizeDownload := p.sizeDownload
  r2Key := some (source ++ "/" ++ arch.name ++ "/" ++ p.filename)
  createdAt := 0

/-- `POST /packages` once the archive is in the pool: one row for each hash and architecture. -/
def postPackage (db : Db) (source : String) (arch : Arch) (p : UpstreamPackage) (m : Manifest) : Db :=
  if indexed db p.sha256 arch then db
  else { db with packages := db.packages ++ [postedRow db source arch p m] }

/-! ## The run -/

/-- The names the ring already serves from a source that wins over this one. -/
def ownedElsewhere (head : Option (List Package)) (opts : SyncOptions) : List String :=
  ((head.getD []).filter fun q => q.repoArch == opts.arch && opts.deferTo.contains q.source).map (·.name)

def yieldToOtherSources (upstream : List UpstreamPackage) (head : Option (List Package)) (opts : SyncOptions) :
    List UpstreamPackage :=
  if opts.deferTo.isEmpty then upstream
  else upstream.filter fun p => !(ownedElsewhere head opts).contains p.name

/-- The object stored under the package's filename, where it is another one. -/
def collision (db : Db) (opts : SyncOptions) (p : UpstreamPackage) : Option String :=
  (byFilename db opts.source opts.arch p.filename).filter (· ≠ p.sha256)

structure Classified where
  known : List String
  reuse : List String
  missing : List UpstreamPackage
  collisions : List (String × String)

def classifyUpstream (db : Db) (upstream : List UpstreamPackage) (opts : SyncOptions) : Classified :=
  let known := (upstream.map (·.sha256)).filter (indexed db · opts.arch)
  let collisions := (upstream.filter fun p => (collision db opts p).isSome).map fun p => (p.filename, p.sha256)
  { known, collisions
    reuse := upstream.filterMap (collision db opts)
    missing := upstream.filter fun p => !known.contains p.sha256 && !(collisions.map (·.1)).contains p.filename }

/-- The imports of a run: what they indexed, the packages done and the ones that failed. -/
def importAll (opts : SyncOptions) (imports : UpstreamPackage → Except String Manifest) :
    List UpstreamPackage → Db → Db × List UpstreamPackage × List (String × String)
  | [], db => (db, [], [])
  | p :: rest, db =>
      match imports p with
      | .ok m =>
          let (db, done, failed) := importAll opts imports rest (postPackage db opts.source opts.arch p m)
          (db, p :: done, failed)
      | .error why =>
          let (db, done, failed) := importAll opts imports rest db
          (db, done, (p.filename, why) :: failed)

/-- The first `limit` of what is missing; the rest waits for the next run. -/
def withinLimit (opts : SyncOptions) (missing : List UpstreamPackage) : List UpstreamPackage :=
  if 0 < opts.limit ∧ opts.limit < missing.length then missing.take opts.limit else missing

/-- What a run decides once its imports are done. -/
structure Selection where
  add : List String
  remove : List (String × String)
  unchanged : Bool
deriving DecidableEq

def selectionOf (upstream : List UpstreamPackage) (head : Option (List Package)) (opts : SyncOptions)
    (c : Classified) (done : List UpstreamPackage) : Selection :=
  let nowKnown := c.known ++ done.map (·.sha256)
  let add := (upstream.filter fun p => nowKnown.contains p.sha256 && !(c.collisions.map (·.1)).contains p.filename).map
    (·.sha256) ++ c.reuse
  let current := (head.getD []).filter fun q => q.source == opts.source && q.repoArch == opts.arch
  let remove := (current.filter fun q => !(upstream.map (·.name)).contains q.name).map fun q => (opts.source, q.name)
  { add, remove
    unchanged := remove.isEmpty && (current.map (·.sha256)).all (add.contains ·) && add.all ((current.map (·.sha256)).contains ·) }

def releaseRequest (opts : SyncOptions) (s : Selection) (note : String) : CreateRelease where
  ring := opts.ring.name
  add := s.add
  removeFrom := s.remove
  removeArch := some opts.arch.name
  note := some note

def syncNote (opts : SyncOptions) (report : SyncReport) : String :=
  "sync " ++ opts.source ++ " " ++ opts.arch.name ++ ": " ++ toString report.uploaded ++ " new, " ++
    toString report.removed ++ " removed, " ++ toString report.upstreamTotal ++ " upstream"

def run (opts : SyncOptions) (imports : UpstreamPackage → Except String Manifest) (upstream : List UpstreamPackage)
    (w : World) : Except Failure SyncReport × World :=
  let head := releaseSummaryOf w.db opts.ring
  let kept := yieldToOtherSources upstream head opts
  let c := classifyUpstream w.db kept opts
  let missing := withinLimit opts c.missing
  let report : SyncReport :=
    { upstreamTotal := upstream.length
      yielded := upstream.length - kept.length
      alreadyIndexed := c.known.length
      collisions := c.collisions
      deferred := c.missing.length - missing.length }
  if opts.dryRun then (.ok report, w)
  else
    let (db, done, failed) := importAll opts imports missing w.db
    let imported := w.commit db
    let s := selectionOf kept head opts c done
    let report :=
      { report with
        uploaded := done.length
        bytesUploaded := (done.map (·.sizeDownload)).sum
        failed
        removed := s.remove.length }
    if s.unchanged then (.ok report, imported)
    else if opts.deferRelease then (.ok { report with pendingAdd := s.add, pendingRemove := s.remove }, imported)
    else
      match (handleCreateRelease (releaseRequest opts s (syncNote opts report))).run imported with
      | (.ok created, w') =>
          (.ok { report with release := some (created.release.id, created.release.seq),
                             unchangedArches := created.unchangedArches }, w')
      | (.error failure, w') => (.error failure, w')

end OmarchyPool.Sync
