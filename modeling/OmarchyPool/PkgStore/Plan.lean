/-
# OmarchyPool.PkgStore.Plan -- what a transaction of the local store plans and commits

The store keeps three tables: the installed packages, the tracked files with their owners, and
which package provides which capability.  A transaction is a set of installs and removals: its
plan goes over the files of every package, refuses a path that another package or nobody's file
holds, and lists what is to be created, replaced and removed; its commit drops the rows of the
packages that go and inserts those of the packages that come.  What the disk answers a plan is a
parameter of it.
-/
import OmarchyPool.Lib.OrderedMap
import Mathlib.Data.List.Sort
import Mathlib.Data.List.Dedup

namespace OmarchyPool.PkgStore

open OmarchyPool.Lib

set_option autoImplicit false

/-! ## The tables -/

/-- A package's manifest, as far as a transaction reads it; `provides` names the capabilities. -/
structure Manifest where
  name : String
  version : String
  sha256 : String
  provides : List String
  files : List String
  backup : List String
  deriving DecidableEq

structure InstalledPackage where
  name : String
  version : String
  sha256 : String
  installedAt : Nat
  manifest : Manifest
  deriving DecidableEq

structure TrackedFile where
  owner : String
  mode : Nat
  sha256 : Option String
  deriving DecidableEq

structure Tables where
  packages : OrderedMap String InstalledPackage
  capabilities : List (String × String)
  files : OrderedMap String TrackedFile
  deriving DecidableEq

def Tables.empty : Tables := ⟨[], [], []⟩

/-! ## The request -/

/-- Installs and removals, each package once. -/
structure Request where
  installs : List Manifest
  removals : List String
  distinct : (installs.map Manifest.name).Nodup

def Request.empty : Request := ⟨[], [], List.nodup_nil⟩

/-- Queues an install, in place of one of the same package. -/
def Request.install (r : Request) (m : Manifest) : Request where
  installs := r.installs.filter (fun other => other.name ≠ m.name) ++ [m]
  removals := r.removals
  distinct := by
    rw [List.map_append, List.nodup_append]
    refine ⟨r.distinct.sublist (List.filter_sublist.map _), List.nodup_singleton _, ?_⟩
    intro name inFilter other single same
    obtain ⟨kept, mem, rfl⟩ := List.mem_map.mp inFilter
    have apart := (List.mem_filter.mp mem).2
    simp only [ne_eq, decide_not, Bool.not_eq_true', decide_eq_false_iff_not] at apart
    exact apart (same.trans (List.mem_singleton.mp single))

/-! ## The plan -/

/-- What makepkg stores at the archive's root. -/
def metadataEntries : List String := [".PKGINFO", ".BUILDINFO", ".MTREE", ".INSTALL", ".CHANGELOG"]

def isMetadata (path : String) : Bool :=
  metadataEntries.any fun entry => entry.toList = path.toList.dropWhile (· = '/')

def isDir (path : String) : Bool := path.toList.getLast? = some '/'

inductive JournalEntry where
  | created (path : String)
  | replaced (path : String)
  | removed (path : String)
  deriving DecidableEq

def JournalEntry.path : JournalEntry → String
  | .created path | .replaced path | .removed path => path

/-- A staged entry: its mode, and its hash when it is a file. -/
structure Meta where
  mode : Nat
  sha256 : Option String

/-- What the disk answers a plan. -/
structure Disk where
  /-- Something stands at the path. -/
  there : String → Bool
  /-- The staged entry of a package's path. -/
  staged : String → String → Option Meta
  /-- The file differs from what was installed. -/
  modified : String → TrackedFile → Bool

inductive Refusal where
  | collision (path owner : String)
  | notInstalled (name : String)
  | io
  deriving DecidableEq

/-- The staged file that goes to a target. -/
structure Source where
  package : String
  path : String
  deriving DecidableEq

structure Plan where
  ops : List JournalEntry
  sources : OrderedMap String Source
  dirs : List (String × Nat)
  pruneDirs : List String
  tracked : List (String × TrackedFile)
  pacnew : List String
  /-- The paths the packages of this transaction take, with who takes them. -/
  claimed : OrderedMap String String
  deriving DecidableEq

def Plan.empty : Plan := ⟨[], [], [], [], [], [], []⟩

/-- Where a file lands: its own path, its `.pacnew` when its owner modified it, or nowhere. -/
def destinationFor (t : Tables) (d : Disk) (removing : List String) (m : Manifest) (path : String) :
    Except Refusal String :=
  match t.files.get path with
  | some row =>
      if row.owner = m.name ∨ row.owner ∈ removing then
        if path ∈ m.backup ∧ d.there path = true ∧ d.modified path row = true then
          .ok (path ++ ".pacnew")
        else .ok path
      else .error (.collision path row.owner)
  | none => if d.there path then .error (.collision path "filesystem") else .ok path

/-- A file of `m` that lands at `target`. -/
def Plan.place (plan : Plan) (d : Disk) (m : Manifest) (path target : String) (meta_ : Meta) : Plan :=
  { plan with
    ops := plan.ops ++ [if d.there target then .replaced target else .created target]
    sources := plan.sources.set target ⟨m.name, path⟩
    tracked := plan.tracked ++ [(path, ⟨m.name, meta_.mode, meta_.sha256⟩)]
    pacnew := if target ≠ path then plan.pacnew ++ [target] else plan.pacnew
    claimed := plan.claimed.set path m.name }

def planFile (t : Tables) (d : Disk) (removing : List String) (m : Manifest) (plan : Plan)
    (path : String) : Except Refusal Plan :=
  if isMetadata path then .ok plan
  else
    match d.staged m.name path with
    | none => .error .io
    | some meta_ =>
        if isDir path then
          .ok { plan with
            dirs := plan.dirs ++ [(path, meta_.mode)]
            pruneDirs :=
              if d.there path = false ∧ path ∉ plan.pruneDirs then plan.pruneDirs ++ [path]
              else plan.pruneDirs }
        else
          match plan.claimed.get path with
          | some other => .error (.collision path (other ++ " (in this transaction)"))
          | none =>
              match destinationFor t d removing m path with
              | .error why => .error why
              | .ok target => .ok (plan.place d m path target meta_)

def planFiles (t : Tables) (d : Disk) (removing : List String) (m : Manifest) :
    List String → Plan → Except Refusal Plan
  | [], plan => .ok plan
  | path :: rest, plan =>
      match planFile t d removing m plan path with
      | .error why => .error why
      | .ok plan => planFiles t d removing m rest plan

/-- A file that leaves the system, unless a package of this transaction takes its path over. -/
def planRemovedFile (d : Disk) (plan : Plan) (path : String) : Plan :=
  if isDir path then
    if path ∈ plan.pruneDirs then plan else { plan with pruneDirs := plan.pruneDirs ++ [path] }
  else if plan.claimed.get path = none ∧ d.there path = true then
    { plan with ops := plan.ops ++ [.removed path] }
  else plan

def planRemovedFiles (d : Disk) (paths : List String) (plan : Plan) : Plan :=
  paths.foldl (planRemovedFile d) plan

/-- The files of `old` that `m` no longer ships, sorted. -/
def dropped (old : Option InstalledPackage) (m : Manifest) : List String :=
  match old with
  | some old => (old.manifest.files.dedup.insertionSort (· ≤ ·)).filter (· ∉ m.files)
  | none => []

def planInstalls (t : Tables) (d : Disk) (removing : List String) :
    List Manifest → Plan → Except Refusal Plan
  | [], plan => .ok plan
  | m :: rest, plan =>
      match planFiles t d removing m m.files plan with
      | .error why => .error why
      | .ok plan =>
          planInstalls t d removing rest
            (planRemovedFiles d (dropped (t.packages.get m.name) m) plan)

def planRemovals (t : Tables) (d : Disk) : List String → Plan → Except Refusal Plan
  | [], plan => .ok plan
  | name :: rest, plan =>
      match t.packages.get name with
      | none => .error (.notInstalled name)
      | some pkg => planRemovals t d rest (planRemovedFiles d pkg.manifest.files plan)

def plan (t : Tables) (d : Disk) (r : Request) : Except Refusal Plan :=
  match planInstalls t d r.removals r.installs .empty with
  | .error why => .error why
  | .ok plan => planRemovals t d r.removals plan

/-! ## The commit -/

/-- The packages that go: the old versions of what is installed, and what is removed. -/
def gone (t : Tables) (r : Request) : List InstalledPackage :=
  r.installs.filterMap (fun m => t.packages.get m.name) ++
    r.removals.filterMap (fun name => t.packages.get name)

def dropRow (owner : String) (files : OrderedMap String TrackedFile) (path : String) :
    OrderedMap String TrackedFile :=
  match files.get path with
  | some row => if row.owner = owner then files.delete path else files
  | none => files

def dropOld (t : Tables) (old : InstalledPackage) : Tables where
  packages := t.packages.delete old.name
  capabilities := t.capabilities.filter
    fun c => ¬ (c.2 = old.name ∧ c.1 ∈ old.manifest.provides)
  files := old.manifest.files.foldl (dropRow old.name) t.files

/-- A capability of a package, once. -/
def provide (name : String) (capabilities : List (String × String)) (capability : String) :
    List (String × String) :=
  if (capability, name) ∈ capabilities then capabilities else capabilities ++ [(capability, name)]

def insertNew (now : Nat) (t : Tables) (m : Manifest) : Tables :=
  { t with
    packages := t.packages.set m.name ⟨m.name, m.version, m.sha256, now, m⟩
    capabilities := m.provides.foldl (provide m.name) t.capabilities }

/-- One write of the database. -/
def commitState (t : Tables) (r : Request) (plan : Plan) (now : Nat) : Tables :=
  let t := r.installs.foldl (insertNew now) ((gone t r).foldl dropOld t)
  { t with files := plan.tracked.foldl (fun files row => files.set row.1 row.2) t.files }

/-- A transaction that nothing interrupts, as the tables see it. -/
def transact (t : Tables) (r : Request) (d : Disk) (now : Nat) : Except Refusal Tables :=
  match r.removals.find? (fun name => (t.packages.get name).isNone) with
  | some name => .error (.notInstalled name)
  | none =>
      match plan t d r with
      | .error why => .error why
      | .ok plan => .ok (commitState t r plan now)

end OmarchyPool.PkgStore
