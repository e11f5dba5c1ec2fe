/-
# OmarchyPool.Checkpoint -- a release's members, and the checkpoints they are read from

The queries of `db.ts` that turn a release into its list of package ids.  A head is its
ring's live rows; any other release is its checkpoint rows, which `ensureCheckpoint`
writes first when there are none: it walks the parents to the nearest checkpoint and
replays the deltas up to the release.
-/
import Mathlib
import OmarchyPool.Statements

namespace OmarchyPool

open Lib

set_option autoImplicit false

/-- A checkpoint is written every this many releases of a ring. -/
def checkpointEvery : Nat := 24

/-- The ids of a reconstruction are checked and written this many at a time. -/
def chunkSize : Nat := 2000

/-- `for (let i = 0; i < list.length; i += n) list.slice(i, i + n)`. -/
def chunks (n : Nat) (ids : List PackageId) : List (List PackageId) :=
  (List.range ((ids.length + n - 1) / n)).map fun i => (ids.drop (i * n)).take n

namespace Db

/-- `SELECT COUNT(*) FROM packages WHERE id IN (…)`. -/
def countPackages (db : Db) (ids : List PackageId) : Nat := (db.packages.filter (·.id ∈ ids)).length

/-- `INSERT OR IGNORE INTO release_packages …; UPDATE releases SET checkpoint = 1`. -/
def materialise (db : Db) (release : ReleaseId) (ids : Finset PackageId) : Db :=
  { db.updateRelease release ({ · with checkpoint := true }) with
    releasePackages :=
      Function.update db.releasePackages release (db.releasePackages release ∪ ids) }

end Db

/-- Down the parents from `cur` until a checkpoint, newest first.  `room` is how many more
releases the chain may take: it holds `4 * checkpointEvery` at most. -/
def walk (releaseId : ReleaseId) : Nat → List Release → Release → Handler (List Release)
  | room, chain, cur =>
    if cur.checkpoint then pure chain else
    match cur.parentId with
    | none => raise s!"release {releaseId} cannot be reconstructed: no checkpoint behind it"
    | some parentId => do
        match ← D1.query .other (·.release? parentId) with
        | none => raise s!"release {releaseId} cannot be reconstructed: release {parentId} is gone"
        | some parent =>
            match room with
            | 0 => raise s!"release {releaseId} cannot be reconstructed: no checkpoint within {chain.length + 1} releases"
            | room + 1 => walk releaseId room (chain ++ [parent]) parent

/-- The selection of a chain: the rows of its last release, the checkpoint, then each
delta up to its first, oldest first. -/
def replay (base : ReleaseId) : List Release → Handler (Finset PackageId)
  | [] => D1.query (.checkpointRows base) (·.releasePackages base)
  | r :: older => do
      let ids ← replay base older
      let delta ← D1.query (.deltas r.id base) (·.releaseDeltas r.id)
      pure (delta.apply ids)

/-- Every chunk asked whether its packages are still there: nothing but this check
refuses a release whose packages GC took. -/
def checkPresent (releaseId : ReleaseId) : List (List PackageId) → Handler Unit
  | [] => pure ()
  | chunk :: rest => do
      let present ← D1.query .other (·.countPackages chunk)
      if present < chunk.length then
        raise s!"release {releaseId} cannot be reconstructed: {chunk.length - present} of its packages were garbage-collected"
      else checkPresent releaseId rest

def writeCheckpoint (releaseId : ReleaseId) (base : Option ReleaseId) (ids : Finset PackageId) :
    Handler Unit := do
  checkPresent releaseId (chunks chunkSize (ids.sort (· ≤ ·)))
  D1.exec (.materialise releaseId base) (·.materialise releaseId ids)

def ensureCheckpoint (releaseId : ReleaseId) : Handler Unit := do
  match ← D1.query .other (·.release? releaseId) with
  | none => raise s!"release {releaseId} does not exist"
  | some start =>
      if start.checkpoint then pure () else
      match ← D1.query .other (·.headRing? releaseId) with
      | some ring => do
          -- A head that is not a checkpoint: its rows are the ring's live ones.
          let ids ← D1.query .other (·.ringPackages ring)
          writeCheckpoint releaseId none ids
      | none => do
          let chain ← walk releaseId (checkpointEvery * 4 - 1) [start] start
          let base := (chain.getLast?.getD start).id
          let ids ← replay base chain.dropLast
          writeCheckpoint releaseId (some base) ids

/-- What lists a release's package ids: the ring's live rows when it is a head, else its
checkpoint rows, materialised first when it has none. -/
def releaseMembers (releaseId : ReleaseId) : Handler Members := do
  match ← D1.query .other (·.headRing? releaseId) with
  | some ring => pure (.ring ring)
  | none => do
      ensureCheckpoint releaseId
      pure (.release releaseId)

/-! ## What a release holds, computed once and kept on its row -/

structure Summary where
  packageCount : Nat
  sizeDownload : Nat
deriving DecidableEq, Repr

def summarize (rows : List Package) : Summary :=
  ⟨rows.length, (rows.map (·.sizeDownload)).sum⟩

def releaseSummary (releaseId : ReleaseId) : Handler Summary := do
  match ← D1.query .other (fun db => (db.release? releaseId).map fun r => (r.packageCount, r.bytes)) with
  | some (some packageCount, some bytes) => pure ⟨packageCount, bytes⟩
  | _ => do
      let members ← releaseMembers releaseId
      let fresh ← D1.query .other fun db => summarize (db.joined (members.rows db))
      D1.exec .other (·.updateRelease releaseId
        ({ · with packageCount := some fresh.packageCount, bytes := some fresh.sizeDownload }))
      pure fresh

/-- `GROUP BY source, repo_arch ORDER BY repo_arch, source`. -/
def slicesOf (rows : List Package) : List SourceSlice :=
  let groups := ((rows.map fun p => (p.repoArch, p.source)).dedup).insertionSort
    fun a b => a.1.name < b.1.name ∨ a.1 = b.1 ∧ a.2 ≤ b.2
  groups.map fun (arch, source) =>
    let slice := rows.filter fun p => p.repoArch == arch && p.source == source
    ⟨source, arch, slice.length, (slice.map (·.sizeDownload)).sum⟩

def releaseSources (releaseId : ReleaseId) : Handler (List SourceSlice) := do
  match ← D1.query .other (fun db => (db.release? releaseId).bind (·.sources)) with
  | some sources => pure sources
  | none => do
      let members ← releaseMembers releaseId
      let fresh ← D1.query .other fun db => slicesOf (db.joined (members.rows db))
      D1.exec .other (·.updateRelease releaseId ({ · with sources := some fresh }))
      pure fresh

end OmarchyPool
