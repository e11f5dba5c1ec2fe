/-
# OmarchyPool.Store -- the pool's index and its bucket

The tables of the index (D1) that the release routes, retention and the renders read
and write, and the bucket (R2) the packages and the databases live in.  A table whose
primary key makes it a set of ids is modelled as that set: `ring_packages` and
`release_packages` are functions to `Finset`, `release_deltas` holds for each release
a `Delta`, whose two sides are disjoint because the primary key is
`(release_id, package_id)`.

A row keeps the columns some modelled statement reads.
-/
import Mathlib.Data.Finset.Sort
import Mathlib.Data.Finset.Union
import Mathlib.Data.List.Sort
import Mathlib.Data.Prod.Lex
import Mathlib.Data.String.Basic

namespace OmarchyPool

set_option autoImplicit false

abbrev ReleaseId := Nat
abbrev PackageId := Nat

/-! ## Rings and architectures (`meta.ts`) -/

inductive Ring where
  | edge | rc | stable | lab
deriving DecidableEq, Repr

def Ring.name : Ring → String
  | .edge => "edge"
  | .rc => "rc"
  | .stable => "stable"
  | .lab => "lab"

/-- `RINGS`, in its own order. -/
def rings : List Ring := [.edge, .rc, .stable, .lab]

theorem mem_rings (ring : Ring) : ring ∈ rings := by cases ring <;> decide

/-- `isRing`, with the ring the name is of. -/
def isRing (s : String) : Option Ring := rings.find? (·.name == s)

inductive Arch where
  | x86_64 | aarch64
deriving DecidableEq, Repr

def Arch.name : Arch → String
  | .x86_64 => "x86_64"
  | .aarch64 => "aarch64"

/-- `REPO_ARCHES`. -/
def repoArches : List Arch := [.x86_64, .aarch64]

theorem mem_repoArches (arch : Arch) : arch ∈ repoArches := by cases arch <;> decide

/-- `isRepoArch`, with the architecture the name is of. -/
def isRepoArch (s : String) : Option Arch := repoArches.find? (·.name == s)

/-- `SOURCES`: what `POST /packages` takes as the source of a package. -/
def sources : List String :=
  ["core", "extra", "multilib", "alarm", "packages", "chaotic", "asahi", "asahi-alarm", "aur", "factory"]

/-! ## Names of package archives (`pool.ts`) -/

/-- What is before a suffix, when it is one. -/
def stripSuffix (suffix text : List Char) : Option (List Char) :=
  if suffix.isSuffixOf text then some (text.take (text.length - suffix.length)) else none

theorem of_stripSuffix {suffix text stem : List Char} (stripped : stripSuffix suffix text = some stem) :
    text = stem ++ suffix := by
  unfold stripSuffix at stripped
  split at stripped
  · rename_i isSuffix
    obtain ⟨front, rfl⟩ := List.isSuffixOf_iff_suffix.mp isSuffix
    simpa using stripped
  · cases stripped

/-- `[A-Za-z0-9@._+:-]`. -/
def isNameChar (c : Char) : Bool := c.isAlphanum || ['@', '.', '_', '+', ':', '-'].contains c

/-- `FILENAME_RE`: `^[A-Za-z0-9@._+:-]+-(x86_64|aarch64|any)\.pkg\.tar\.(zst|xz)$`. -/
def isFilename (filename : String) : Bool :=
  ["-x86_64", "-aarch64", "-any"].any fun arch =>
    [".pkg.tar.zst", ".pkg.tar.xz"].any fun ext =>
      (stripSuffix (arch.toList ++ ext.toList) filename.toList).any fun stem =>
        !stem.isEmpty && stem.all isNameChar

/-! ## Rows -/

/-- A row of `packages`; `(sha256, repoArch)` is unique (migration 0055). -/
structure Package where
  id : PackageId
  sha256 : String
  name : String
  version : String
  repoArch : Arch
  source : String
  filename : String
  sizeDownload : Nat
  r2Key : Option String
  createdAt : Nat
deriving DecidableEq, Repr

namespace Package

/-- `COALESCE(r2_key, repo_arch || '/' || filename)`: a null key is the flat one. -/
def key (p : Package) : String := p.r2Key.getD (p.repoArch.name ++ "/" ++ p.filename)

/-- What a selection holds at most one row of. -/
def slot (p : Package) : String × String × Arch := (p.source, p.name, p.repoArch)

/-- What a row is listed by. -/
abbrev RowKey := String ×ₗ String ×ₗ String

def rowKey (p : Package) : RowKey := toLex (p.name, toLex (p.repoArch.name, p.source))

/-- The hash of the concrete rows below: one hexadecimal digit, 64 times. -/
def sampleHash (digit : Char) : String := String.ofList (List.replicate 64 digit)

/-- A row as the index holds it, for the concrete runs. -/
def sample (id : PackageId) (digit : Char) (source name : String) (version : String := "1.0-1")
    (arch : Arch := .x86_64) : Package :=
  let filename := name ++ "-" ++ version ++ "-" ++ arch.name ++ ".pkg.tar.zst"
  { id, name, version, source, filename
    sha256 := sampleHash digit
    repoArch := arch
    sizeDownload := 1
    r2Key := some (source ++ "/" ++ arch.name ++ "/" ++ filename)
    createdAt := 0 }

end Package

/-- One entry of `releases.sources`. -/
structure SourceSlice where
  source : String
  arch : Arch
  packages : Nat
  bytes : Nat
deriving DecidableEq, Repr

/-- A row of `releases`; `(ring, seq)` is unique. -/
structure Release where
  id : ReleaseId
  ring : Ring
  seq : Nat
  parentId : Option ReleaseId
  sourceId : Option ReleaseId
  note : Option String
  checkpoint : Bool
  packageCount : Option Nat
  bytes : Option Nat
  sources : Option (List SourceSlice)
deriving DecidableEq, Repr

/-- The rows of `release_deltas` of one release. -/
structure Delta where
  add : Finset PackageId
  remove : Finset PackageId
  disjoint : Disjoint add remove
deriving DecidableEq

namespace Delta

/-- No rows. -/
def empty : Delta := ⟨∅, ∅, Finset.disjoint_empty_left _⟩

/-- What changed from `own` to `target`, both ways. -/
def between (own target : Finset PackageId) : Delta :=
  ⟨target \ own, own \ target, Finset.disjoint_left.mpr fun _ added removed =>
    (Finset.mem_sdiff.mp added).2 (Finset.mem_sdiff.mp removed).1⟩

/-- The rows applied one by one: a `remove` deletes the id, an `add` adds it. -/
def apply (d : Delta) (ids : Finset PackageId) : Finset PackageId := (ids \ d.remove) ∪ d.add

@[simp] theorem empty_apply (ids : Finset PackageId) : empty.apply ids = ids := by
  simp [empty, apply]

/-- The delta between two selections takes the first to the second. -/
@[simp] theorem between_apply (own target : Finset PackageId) :
    (between own target).apply own = target := by
  ext x
  simp only [between, apply, Finset.mem_union, Finset.mem_sdiff]
  tauto

end Delta

/-- The kinds of `release_artifacts`. -/
inductive Kind where
  | db | dbSig | files | filesSig
deriving DecidableEq, Repr

namespace Kind

def name : Kind → String
  | .db => "db"
  | .dbSig => "db.sig"
  | .files => "files"
  | .filesSig => "files.sig"

/-- The signature the pool makes of a database: `${kind}.sig`, of `db` and `files` only. -/
def sig : Kind → Option Kind
  | .db => some .dbSig
  | .files => some .filesSig
  | _ => none

end Kind

/-- A row of `release_artifacts`; `(releaseId, repo, arch, kind)` is its key. -/
structure Artifact where
  releaseId : ReleaseId
  repo : String
  arch : Arch
  kind : Kind
  r2Key : String
  size : Nat
  awaits : Option ReleaseId
deriving DecidableEq, Repr

/-- An object of the bucket.  Of a database's bytes the model keeps what they are
determined by: the packages they list, and the release they were rendered for. -/
structure Blob where
  size : Nat
  lists : Finset PackageId
  renderedFor : Option ReleaseId
deriving DecidableEq

/-! ## The index and the bucket -/

structure Db where
  packages : List Package
  /-- In the order the rows were inserted. -/
  releases : List Release
  /-- The id the next row of `releases` takes (`AUTOINCREMENT`). -/
  nextRelease : ReleaseId
  ringHeads : Ring → Option ReleaseId
  ringPackages : Ring → Finset PackageId
  releaseDeltas : ReleaseId → Delta
  releasePackages : ReleaseId → Finset PackageId
  artifacts : List Artifact
  bucket : String → Option Blob

namespace Db

def package? (db : Db) (id : PackageId) : Option Package := db.packages.find? (·.id == id)

def release? (db : Db) (id : ReleaseId) : Option Release := db.releases.find? (·.id == id)

/-- `WHERE ring = ?`. -/
def ofRing (db : Db) (ring : Ring) : List Release := db.releases.filter (·.ring == ring)

/-- `ringHead`: the release `ring_heads` names, joined with its row. -/
def ringHead (db : Db) (ring : Ring) : Option Release := (db.ringHeads ring).bind db.release?

/-- `SELECT ring FROM ring_heads WHERE release_id = ?`. -/
def headRing? (db : Db) (id : ReleaseId) : Option Ring :=
  rings.find? fun ring => db.ringHeads ring == some id

/-- `COALESCE(MAX(seq), 0)` over a ring's releases. -/
def maxSeq (db : Db) (ring : Ring) : Nat := ((db.ofRing ring).map (·.seq)).foldr max 0

/-- `COALESCE(MAX(seq), 0)` over a ring's checkpoints. -/
def lastCheckpoint (db : Db) (ring : Ring) : Nat :=
  (((db.ofRing ring).filter (·.checkpoint)).map (·.seq)).foldr max 0

/-- `WHERE ring = ? ORDER BY seq DESC`. -/
def newestFirst (db : Db) (ring : Ring) : List Release :=
  (db.ofRing ring).insertionSort fun a b => b.seq ≤ a.seq

/-- Some ring serves the package now. -/
def served (db : Db) (id : PackageId) : Bool := rings.any fun ring => id ∈ db.ringPackages ring

/-- The rows of `packages` a set of ids joins with. -/
def joined (db : Db) (ids : Finset PackageId) : List Package := db.packages.filter (·.id ∈ ids)

/-- `ORDER BY p.name, p.repo_arch, p.source`: a walk of that index, which has rows of one key in the table's order. -/
def rowsInOrder (db : Db) (ids : Finset PackageId) (arch : Option Arch) : List Package :=
  (db.packages.filter fun p => p.id ∈ ids && arch.all (· == p.repoArch)).insertionSort
    fun a b => a.rowKey ≤ b.rowKey

theorem mem_rowsInOrder (db : Db) (ids : Finset PackageId) (arch : Option Arch) (p : Package) :
    p ∈ db.rowsInOrder ids arch ↔ p ∈ db.packages ∧ p.id ∈ ids ∧ ∀ a, arch = some a → p.repoArch = a := by
  rw [rowsInOrder, (List.perm_insertionSort _ _).mem_iff, List.mem_filter]
  cases arch with
  | none => simp
  | some a => simp [@eq_comm _ a p.repoArch]

/-- One release's row replaced: what `UPDATE releases SET … WHERE id = ?` does. -/
def updateRelease (db : Db) (id : ReleaseId) (change : Release → Release) : Db :=
  { db with releases := db.releases.map fun r => if r.id = id then change r else r }

end Db

end OmarchyPool
