/-
# OmarchyPool.Gc -- retention, and what garbage collection deletes by it

`retention` lists the releases GC protects and the checkpoints it keeps, ring by ring;
`outsideRetention` is the predicate on a package that follows from them.  `handleGc`
drops every other checkpoint and the deltas a kept checkpoint makes redundant, then
deletes the packages outside retention one at a time: the served probe, the count of
other rows that name the object, the object, the row.

What `handleGc` sweeps in other tables (advisories, staging, grants, challenges, orders)
touches none of these and is left out.
-/
import OmarchyPool.CreateRelease

namespace OmarchyPool

open Lib

set_option autoImplicit false

/-! ## Retention -/

/-- How many releases back a head's carried databases are looked for. -/
def carryReach : Nat := 256

namespace Db

/-- `CARRIED_ARCHES_SQL`: the architectures whose databases a head carries, awaiting a render. -/
def carriedArches (db : Db) (head : ReleaseId) : List Arch :=
  repoArches.filter fun arch => (db.artifactsOf head arch).any (·.awaits.isSome)

/-- The release's databases of the architecture were all rendered for it. -/
def rendered (db : Db) (r : Release) (arch : Arch) : Bool :=
  !(db.artifactsOf r.id arch).isEmpty && (db.artifactsOf r.id arch).all (·.awaits.isNone)

/-- `RENDERED_BEFORE_SQL`: the newest such release before a head, within `carryReach`. -/
def renderedBefore (db : Db) (ring : Ring) (seq : Nat) (arch : Arch) : Option Nat :=
  ((db.newestFirst ring).find? fun r =>
    r.seq < seq && seq ≤ r.seq + carryReach && db.rendered r arch).map (·.seq)

/-- `ring = ? AND checkpoint = 1 AND seq <= ? ORDER BY seq DESC LIMIT 1`. -/
def checkpointAtOrBefore (db : Db) (ring : Ring) (seq : Nat) : Option Release :=
  (db.newestFirst ring).find? fun r => r.checkpoint && r.seq ≤ seq

end Db

/-- The oldest release whose databases a ring's head still serves: over the architectures it
carries, the newest release before it whose databases were all rendered for it, or the whole
reach when there is none.  `since` is the minimum so far. -/
def carriedSince (ring : Ring) (head : Release) : List Arch → Option Nat → Handler (Option Nat)
  | [], since => pure since
  | arch :: rest, since => do
      let rendered ← D1.query .other (·.renderedBefore ring head.seq arch)
      let seq := rendered.getD (max 1 (head.seq - carryReach))
      carriedSince ring head rest (some (since.elim seq (min · seq)))

structure Retained where
  protectedReleases : List ReleaseId
  keptCheckpoints : List ReleaseId
  checkpointSeq : List (Ring × Nat)
deriving DecidableEq, Repr

/-- The releases of a ring retention protects, newest first: the last `keep`, and those back
to the release whose databases the head carries. -/
def protectedRows (keep : Nat) (ring : Ring) : Handler (List Release) := do
  let rows ← D1.query .other fun db => (db.newestFirst ring).take keep
  match rows.head?, rows.getLast? with
  | some head, some oldest => do
      let arches ← D1.query .other (·.carriedArches head.id)
      match ← carriedSince ring head arches none with
      | some since =>
          if since < oldest.seq then do
            let older ← D1.query .other fun db =>
              (db.newestFirst ring).filter fun r => since ≤ r.seq && r.seq < oldest.seq
            pure (rows ++ older)
          else pure rows
      | none => pure rows
  | _, _ => pure rows

/-- One ring's part of retention, added to what the rings before it gave. -/
def retainRing (keep : Nat) (ring : Ring) (acc : Retained) : Handler Retained := do
  let rows ← protectedRows keep ring
  let acc := { acc with
    protectedReleases := acc.protectedReleases ++ rows.map (·.id)
    keptCheckpoints := acc.keptCheckpoints ++ (rows.filter (·.checkpoint)).map (·.id) }
  match rows.getLast? with
  | none => pure acc
  | some oldest => do
      match ← D1.query .other (·.checkpointAtOrBefore ring oldest.seq) with
      | none => pure acc
      | some base =>
          pure { acc with
            keptCheckpoints :=
              if base.id ∈ acc.keptCheckpoints then acc.keptCheckpoints
              else acc.keptCheckpoints ++ [base.id]
            checkpointSeq := acc.checkpointSeq ++ [(ring, base.seq)] }

def retainRings (keep : Nat) : List Ring → Retained → Handler Retained
  | [], acc => pure acc
  | ring :: rest, acc => do
      let acc ← retainRing keep ring acc
      retainRings keep rest acc

def retention (keep : Nat) : Handler Retained := retainRings keep rings ⟨[], [], []⟩

/-- No ring serves the package, no kept checkpoint lists it, no protected release's delta
names it. -/
def Db.outsideRetention (db : Db) (kept : Retained) (id : PackageId) : Bool :=
  rings.all (fun ring => id ∉ db.ringPackages ring) &&
    kept.keptCheckpoints.all (fun c => id ∉ db.releasePackages c) &&
    kept.protectedReleases.all fun r =>
      id ∉ (db.releaseDeltas r).add && id ∉ (db.releaseDeltas r).remove

/-! ## What GC writes -/

namespace Db

/-- `DELETE FROM release_packages WHERE release_id NOT IN (…)`. -/
def pruneRows (db : Db) (kept : List ReleaseId) : Db :=
  { db with releasePackages := fun id => if id ∈ kept then db.releasePackages id else ∅ }

/-- `UPDATE releases SET checkpoint = 0 WHERE checkpoint = 1 AND id NOT IN (…)`. -/
def pruneFlags (db : Db) (kept : List ReleaseId) : Db :=
  { db with releases := db.releases.map fun r =>
      if r.id ∈ kept then r else { r with checkpoint := false } }

/-- `DELETE FROM release_deltas WHERE release_id IN (… ring = ? AND seq <= ?)`. -/
def pruneDeltas (db : Db) (ring : Ring) (seq : Nat) : Db :=
  { db with releaseDeltas := fun id =>
      if (db.ofRing ring).any (fun r => r.id == id && r.seq ≤ seq) then .empty
      else db.releaseDeltas id }

/-- The object, its signature, and the two of its provenance. -/
def deleteObject (db : Db) (victim : Package) : Db :=
  { db with bucket := fun key =>
      if key ∈ [victim.key, victim.key ++ ".sig", victim.key ++ ".provenance.json",
        victim.key ++ ".provenance.json.sig"] then none else db.bucket key }

/-- The row, unless a ring serves it. -/
def deleteRow (db : Db) (victim : Package) : Db :=
  if db.served victim.id then db
  else { db with packages := db.packages.filter (·.id != victim.id) }

/-- The other rows of the filename that name the victim's object. -/
def sharedRows (db : Db) (victim : Package) : Nat :=
  (db.packages.filter fun q =>
    q.filename == victim.filename && q.id != victim.id && q.key == victim.key).length

end Db

/-- `p.r2_key.startsWith("ghost/")`: a row whose bytes the pool never held. -/
def Package.ghost (p : Package) : Bool := "ghost/".toList.isPrefixOf p.key.toList

structure GcReport where
  deleted : Nat
  takenBack : Nat
  objectsKept : Nat
  bytes : Nat
deriving DecidableEq, Repr

/-- Up to the victim's row: its object goes unless another row names it. -/
def deleteVictimObject (victim : Package) : Handler Bool := do
  let shared ← D1.query (.shared victim) (·.sharedRows victim)
  if shared ≠ 0 then pure true
  else if victim.ghost then pure false
  else do
    D1.exec (.deleteObject victim) (·.deleteObject victim)
    pure false

def deleteVictims : List Package → GcReport → Handler GcReport
  | [], report => pure report
  | victim :: rest, report => do
      -- The victims were listed minutes ago: asked once more whether a ring took it back.
      if ← D1.query (.probe victim) (·.served victim.id) then
        deleteVictims rest { report with takenBack := report.takenBack + 1 }
      else do
        let kept ← deleteVictimObject victim
        let report := { report with objectsKept := report.objectsKept + if kept then 1 else 0 }
        let gone ← D1.returning (.deleteRow victim) (·.deleteRow victim) fun db =>
          !db.served victim.id && db.packages.any (·.id == victim.id)
        if gone then
          deleteVictims rest { report with
            deleted := report.deleted + 1, bytes := report.bytes + victim.sizeDownload }
        else deleteVictims rest { report with takenBack := report.takenBack + 1 }

def pruneRingDeltas : List (Ring × Nat) → Handler Unit
  | [] => pure ()
  | (ring, seq) :: rest => do
      D1.exec (.pruneDeltas ring seq) (·.pruneDeltas ring seq)
      pruneRingDeltas rest

/-- `list.slice(0, limit)`: a negative limit counts from the end. -/
def sliceTo {α : Type} (limit : Int) (list : List α) : List α :=
  if 0 ≤ limit then list.take limit.toNat else list.take (list.length - (-limit).toNat)

/-- The parameters of `POST /pool/gc`; `cutoff` is now less the grace period. -/
structure GcParams where
  keep : Nat := 3
  limit : Int := 200
  cutoff : Nat
deriving DecidableEq, Repr

/-- What retention would delete now: outside it, and past the grace period, by id. -/
def Db.unreferenced (db : Db) (kept : Retained) (cutoff : Nat) : List Package :=
  (db.packages.filter fun p => p.createdAt < cutoff && db.outsideRetention kept p.id).insertionSort
    fun a b => a.id ≤ b.id

def handleGc (params : GcParams) : Handler GcReport := do
  let kept ← retention (max 1 params.keep)
  let packages ← D1.query .other (·.unreferenced kept params.cutoff)
  D1.exec (.pruneRows kept.keptCheckpoints) (·.pruneRows kept.keptCheckpoints)
  D1.exec (.pruneFlags kept.keptCheckpoints) (·.pruneFlags kept.keptCheckpoints)
  pruneRingDeltas kept.checkpointSeq
  deleteVictims (sliceTo (min params.limit 500) packages) ⟨0, 0, 0, 0⟩

end OmarchyPool
