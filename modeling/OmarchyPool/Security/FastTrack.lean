/-
# OmarchyPool.Security.FastTrack -- the clean version of a vulnerable package pulled past the soak

`GET /security` lists what a ring serves with an open advisory, one entry per name with the version of the first row
of that name, and where else a version without one is served.  Which of two rows comes first its queries leave open in
part: that is a `Planner`'s.  A fast-track takes of these the confident and severe
ones whose clean version in another ring is newer, finds that version among the other ring's rows by name,
architecture and version, and adds the rows found to the ring in one release.

What the view says besides -- the exposure, the totals, the texts of an advisory, its EPSS -- is left out, and so are
the journal's line and the half hour the view may stay at the edge.
-/
import OmarchyPool.Manifest.Vercmp
import OmarchyPool.OwnBase
import OmarchyPool.Sync.Run

namespace OmarchyPool.Security

open OmarchyPool.Lib OmarchyPool.Manifest

set_option autoImplicit false

/-! ## The tables -/

/-- `SEVERITIES`, worst first; what is none of them is stored as `unknown`. -/
inductive Severity where
  | critical | high | medium | low | unknown
deriving DecidableEq, Repr

def severityRank : Severity → Nat
  | .critical => 0
  | .high => 1
  | .medium => 2
  | .low => 3
  | .unknown => 4

/-- `match`: what the tracker knows the version by. -/
inductive MatchKind where
  | exact | nameVersion | nameOnly
deriving DecidableEq, Repr

inductive MatchStatus where
  | vulnerable | fixed | notAffected
deriving DecidableEq, Repr

structure Advisory where
  id : String
  cves : List String
  severity : Severity
deriving DecidableEq, Repr

structure CveMeta where
  cve : String
  kev : Bool
deriving DecidableEq, Repr

/-- A row of `package_advisories`. -/
structure PackageAdvisory where
  packageId : PackageId
  advisoryId : String
  kind : MatchKind
  status : MatchStatus
deriving DecidableEq, Repr

structure SecurityDb where
  advisories : List Advisory
  cveMeta : List CveMeta
  packageAdvisories : List PackageAdvisory
  /-- The packages `package_components` has rows of. -/
  packageComponents : List PackageId

/-! ## `GET /security` -/

/-- One row of the view's query. -/
structure Exposed where
  package : Package
  advisory : Advisory
  kind : MatchKind
  kev : Bool
deriving DecidableEq

def kevOf (s : SecurityDb) (a : Advisory) : Bool := s.cveMeta.any fun c => a.cves.contains c.cve && c.kev

/-- `ORDER BY CASE a.severity … END, p.name`. -/
def Exposed.LE (x y : Exposed) : Prop :=
  toLex (severityRank x.advisory.severity, x.package.name) ≤ toLex (severityRank y.advisory.severity, y.package.name)

instance (x y : Exposed) : Decidable (x.LE y) := inferInstanceAs (Decidable (_ ≤ _))

structure Clean where
  name : String
  version : String
  scanned : Bool
deriving DecidableEq

/-- How the database orders what a query does not: of the rows of an answer, one of the orders its `ORDER BY` leaves
open. -/
structure Planner where
  exposed : Ring → Arch → List Exposed → List Exposed
  clean : Ring → Arch → List Clean → List Clean
  exposed_perm : ∀ ring arch rows, (exposed ring arch rows).Perm rows
  exposed_sorted : ∀ ring arch rows, (exposed ring arch rows).Pairwise Exposed.LE
  clean_perm : ∀ ring arch rows, (clean ring arch rows).Perm rows

/-- Rows that nothing orders stay in the table's order. -/
def Planner.table : Planner where
  exposed _ _ rows := rows.insertionSort Exposed.LE
  clean _ _ rows := rows
  exposed_perm _ _ rows := List.perm_insertionSort _ rows
  exposed_sorted _ _ rows := by
    have : IsTrans Exposed Exposed.LE := ⟨fun _ _ _ => le_trans⟩
    have : Std.Total Exposed.LE := ⟨fun _ _ => le_total _ _⟩
    exact List.pairwise_insertionSort _ rows
  clean_perm _ _ rows := List.Perm.refl rows

/-- The open advisories on what a ring serves. -/
def exposedRows (plan : Planner) (s : SecurityDb) (db : Db) (ring : Ring) (arch : Arch) : List Exposed :=
  plan.exposed ring arch (((db.ringRows ring).filter (·.repoArch == arch)).flatMap fun p =>
    (s.packageAdvisories.filter fun m => m.packageId == p.id && m.status == .vulnerable).flatMap fun m =>
      (s.advisories.filter (·.id == m.advisoryId)).map fun a => ⟨p, a, m.kind, kevOf s a⟩)

/-- An entry of `byPkg`: the first row of the name, and the advisories of all of them. -/
structure Grouped where
  id : PackageId
  name : String
  version : String
  advisories : List (String × MatchKind)
  worst : Severity
  kev : Bool
deriving DecidableEq

def grouped (rows : List Exposed) (name : String) : Option Grouped :=
  let mine := rows.filter (·.package.name == name)
  mine.head?.map fun first =>
    { id := first.package.id
      name := name
      version := first.package.version
      advisories := mine.map fun r => (r.advisory.id, r.kind)
      worst := mine.foldl
        (fun worst r => if severityRank r.advisory.severity < severityRank worst then r.advisory.severity else worst) .unknown
      kev := mine.any (·.kev) }

/-- `byPkg`, in the order the names come first. -/
def byPkg (rows : List Exposed) : List Grouped := ((rows.map (·.package.name)).eraseDups).filterMap (grouped rows)

/-- The rows of these names a ring serves without an open advisory. -/
def cleanIn (plan : Planner) (s : SecurityDb) (db : Db) (ring : Ring) (arch : Arch) (names : List String) : List Clean :=
  plan.clean ring arch (names.flatMap fun name =>
    ((db.ringRows ring).filter fun p => p.name == name && p.repoArch == arch &&
      !(s.packageAdvisories.any fun m => m.packageId == p.id && m.status == .vulnerable)).map fun p =>
        ⟨p.name, p.version, s.packageComponents.contains p.id⟩)

/-- Where a version of a name without open advisories is, among the other rings that have a head.  A name whose
vulnerable object embeds components is clean only where the object was scanned for them. -/
def fixedElsewhere (plan : Planner) (s : SecurityDb) (db : Db) (ring : Ring) (arch : Arch) (vulnerable : List Grouped)
    (name : String) : List (Ring × String) :=
  let withComponents := (db.packages.filter fun p =>
    (vulnerable.map (·.id)).contains p.id && s.packageComponents.contains p.id).map (·.name)
  (rings.filter fun r => r != ring && r != .lab && (db.ringHead r).isSome).flatMap fun r =>
    ((cleanIn plan s db r arch (vulnerable.map (·.name))).filter fun c =>
      c.name == name && !(withComponents.contains c.name && !c.scanned)).map fun c => (r, c.version)

structure SecurityRow where
  name : String
  version : String
  worst : Severity
  kev : Bool
  advisories : List (String × MatchKind)
  fixedIn : List (Ring × String)
deriving DecidableEq

/-- `handleSecurity`: nothing of a ring without a head. -/
def handleSecurity (plan : Planner) (s : SecurityDb) (db : Db) (ring : Ring) (arch : Arch) : List SecurityRow :=
  match db.ringHead ring with
  | none => []
  | some _ =>
      let vulnerable := byPkg (exposedRows plan s db ring arch)
      vulnerable.map fun v =>
        { name := v.name
          version := v.version
          worst := v.worst
          kev := v.kev
          advisories := v.advisories
          fixedIn := fixedElsewhere plan s db ring arch vulnerable v.name }

/-! ## `fast_track` -/

structure FastTrackOptions where
  /-- The ring to fix. -/
  ring : Ring
  /-- The ring whose clean, newer objects are pulled in. -/
  fromRing : Ring
  minSeverity : Severity
  dryRun : Bool
deriving DecidableEq

/-- An entry of `fixes`. -/
structure Fix where
  name : String
  arch : Arch
  vulnerable : String
  clean : String
deriving DecidableEq, Repr

structure FastTrackReport where
  fixes : List Fix := []
  release : Option (ReleaseId × Nat) := none
deriving DecidableEq

/-- The bytes `vercmp` reads of a version. -/
def bytesOf (version : String) : Bytes := version.toUTF8.data.toList

def compareVersions (a b : String) : Ordering := vercmp (bytesOf a) (bytesOf b)

/-- `(name, vulnerable, clean)` of one entry of the view, when a fast-track would replace it. -/
def candidate (opts : FastTrackOptions) (v : SecurityRow) : Option (String × String × String) :=
  if v.advisories.any (·.2 != .nameOnly) && (v.kev || severityRank v.worst ≤ severityRank opts.minSeverity) then
    (v.fixedIn.find? (·.1 == opts.fromRing)).bind fun clean =>
      if compareVersions clean.2 v.version = .gt then some (v.name, v.version, clean.2) else none
  else none

def fastTrackCandidates (view : List SecurityRow) (opts : FastTrackOptions) : List (String × String × String) :=
  view.filterMap (candidate opts)

/-- A fix, and the row that is to bring it. -/
structure Taken where
  fix : Fix
  object : Package
deriving DecidableEq

/-- The object of a candidate: the first row of the name, the architecture and the clean version. -/
def objectOf (summary : List Package) (arch : Arch) (c : String × String × String) : Option Taken :=
  (summary.find? fun p => p.name == c.1 && p.repoArch == arch && p.version == c.2.2).map fun object =>
    ⟨⟨c.1, arch, c.2.1, c.2.2⟩, object⟩

/-- One round of the loop over the architectures. -/
def takenOf (plan : Planner) (s : SecurityDb) (db : Db) (opts : FastTrackOptions) (arch : Arch) : List Taken :=
  match Sync.releaseSummaryOf db opts.fromRing with
  | none => []
  | some summary => (fastTrackCandidates (handleSecurity plan s db opts.ring arch) opts).filterMap (objectOf summary arch)

def taken (plan : Planner) (s : SecurityDb) (db : Db) (opts : FastTrackOptions) : List Taken :=
  [Arch.x86_64, .aarch64].flatMap (takenOf plan s db opts)

def fastTrackNote (opts : FastTrackOptions) (fixes : List Fix) : String :=
  "security fast-track from " ++ opts.fromRing.name ++ ": " ++
    ", ".intercalate (fixes.map fun f => f.name ++ " " ++ f.vulnerable ++ "→" ++ f.clean)

/-- One architecture's row only: the same bytes can be indexed for both. -/
def fixRequest (opts : FastTrackOptions) (taken : List Taken) : CreateRelease where
  ring := opts.ring.name
  add := taken.map fun t => t.object.sha256 ++ "/" ++ t.fix.arch.name
  note := some (fastTrackNote opts (taken.map (·.fix)))

def fastTrack (plan : Planner) (s : SecurityDb) (opts : FastTrackOptions) (w : World) : Except Failure FastTrackReport × World :=
  let taken := taken plan s w.db opts
  let report : FastTrackReport := { fixes := taken.map (·.fix) }
  if report.fixes.isEmpty then (.ok report, w)
  else if opts.dryRun then (.ok report, w)
  else
    match (handleCreateRelease (fixRequest opts taken)).run w with
    | (.ok created, w') => (.ok { report with release := some (created.release.id, created.release.seq) }, w')
    | (.error failure, w') => (.error failure, w')

end OmarchyPool.Security
