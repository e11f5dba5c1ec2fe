/-
# OmarchyPool.Statements -- the statements a request issues

A route of the worker is a `Handler`: a program (`Lib.Program`) whose statements are
the D1 statements and R2 calls the source awaits, one each, in the source's order.
A read is a function of the index alone and a write a function from index to index,
so no statement sees the history below.

`World` adds that history to the index: for every release, what `ring_packages` held
for its ring right after the release was created.  `World.commit` records it from
outside, by comparing the index before and after a write.

`Event` labels the statements the results single out, each with what the request
binds to it or holds at that point.
-/
import OmarchyPool.Lib.Program
import OmarchyPool.Store

namespace OmarchyPool

open Lib

set_option autoImplicit false

/-! ## The index and its history -/

structure World where
  db : Db
  /-- What `ring_packages` held for the release's ring when the release was created. -/
  selection : ReleaseId → Finset PackageId

namespace World

/-- The index after a write; a release the write inserted is recorded with the rows
its ring then has. -/
def commit (w : World) (db : Db) : World where
  db := db
  selection := fun id =>
    match db.release? id with
    | some r => if (w.db.release? id).isNone then db.ringPackages r.ring else w.selection id
    | none => w.selection id

@[simp] theorem commit_db (w : World) (db : Db) : (w.commit db).db = db := rfl

/-- A pool that has indexed packages and made no release yet. -/
def fresh (packages : List Package) (bucket : String → Option Blob) : World where
  db :=
    { packages, bucket
      releases := []
      nextRelease := 1
      ringHeads := fun _ => none
      ringPackages := fun _ => ∅
      releaseDeltas := fun _ => .empty
      releasePackages := fun _ => ∅
      artifacts := [] }
  selection := fun _ => ∅

end World

/-- Why a request ends without an answer: the route refuses it with a status, the code
throws, or D1 refuses a batch. -/
inductive Failure where
  | refused (status : Nat) (error : String)
  | thrown (message : String)
  | constraint (message : String)
deriving DecidableEq, Repr

/-! ## A list of package ids as the SQL that selects it -/

/-- The fragments `ringMembers`, `releaseMembers` and `baseSql` build: what they select
is read when the statement that holds them runs. -/
inductive Members where
  /-- `ring_packages WHERE ring = '__none__'`. -/
  | none
  | ring (ring : Ring)
  | release (id : ReleaseId)
  /-- One architecture of `base`, the other as `own` serves it. -/
  | oneArch (base : Members) (arch : Arch) (own : Ring)
deriving DecidableEq, Repr

namespace Db

/-- The ids of `ids` whose `packages` row satisfies `keep`. -/
def select (db : Db) (ids : Finset PackageId) (keep : Package → Bool) : Finset PackageId :=
  ids.filter fun id => (db.package? id).any keep

section Index

variable {db : Db} (distinct : (db.packages.map (·.id)).Nodup)
include distinct

/-- The index finds a row by its id. -/
theorem package?_of_mem {p : Package} (member : p ∈ db.packages) : db.package? p.id = some p := by
  cases found : db.package? p.id with
  | none => exact absurd (List.find?_eq_none.mp found p member) (by simp)
  | some q =>
      have same : q.id = p.id := by simpa using List.find?_some found
      rw [List.inj_on_of_nodup_map distinct (List.mem_of_find?_eq_some found) member same]

theorem mem_select {ids : Finset PackageId} {keep : Package → Bool} {p : Package}
    (member : p ∈ db.packages) : p.id ∈ db.select ids keep ↔ p.id ∈ ids ∧ keep p = true := by
  simp [select, package?_of_mem distinct member]

end Index

end Db

def Members.rows (db : Db) : Members → Finset PackageId
  | .none => ∅
  | .ring which => db.ringPackages which
  | .release id => db.releasePackages id
  | .oneArch base arch own =>
      db.select (base.rows db) (·.repoArch == arch) ∪
        db.select (db.ringPackages own) (·.repoArch != arch)

/-- What the batch of `handleCreateRelease` is made of: the values bound to its
statements, and the base its target selection starts from. -/
structure CreateBatch where
  ring : Ring
  seq : Nat
  parent : Option ReleaseId
  source : Option ReleaseId
  note : Option String
  base : Members
  remove : List String
  removeFrom : List (String × String)
  removeArch : Option Arch
  added : List PackageId
  checkpoint : Bool
  unchanged : List Arch
deriving DecidableEq, Repr

/-! ## Statements -/

inductive Event where
  /-- A statement nothing below is conditioned on. -/
  | other
  /-- The next `seq` of a ring, read by a request that holds `parent` as its head. -/
  | nextSeq (ring : Ring) (parent : Option ReleaseId)
  /-- The rows of a checkpoint, read by a reconstruction that starts from it. -/
  | checkpointRows (base : ReleaseId)
  /-- A release's deltas, read by a reconstruction that started from `base`. -/
  | deltas (release base : ReleaseId)
  /-- The batch that makes `release` a checkpoint, reconstructed from `base`; a head
  is written from its ring's live rows. -/
  | materialise (release : ReleaseId) (base : Option ReleaseId)
  /-- The batch that creates a release. -/
  | create (batch : CreateBatch)
  /-- GC drops the rows of every checkpoint but the kept ones, -/
  | pruneRows (kept : List ReleaseId)
  /-- their flags, -/
  | pruneFlags (kept : List ReleaseId)
  /-- and the deltas of a ring up to the checkpoint kept for it. -/
  | pruneDeltas (ring : Ring) (seq : Nat)
  /-- GC asks whether a ring serves the victim now, -/
  | probe (victim : Package)
  /-- whether another row names its object, -/
  | shared (victim : Package)
  /-- deletes the object, -/
  | deleteObject (victim : Package)
  /-- and deletes the row unless a ring serves it. -/
  | deleteRow (victim : Package)
deriving DecidableEq, Repr

abbrev Handler (α : Type) := Program World Event Failure α

namespace D1

variable {α : Type}

def query (event : Event) (read : Db → α) : Handler α :=
  Program.query event fun w => read w.db

def exec (event : Event) (write : Db → Db) : Handler Unit :=
  Program.exec event fun w => w.commit (write w.db)

/-- A write and what it reports of the index it found. -/
def returning (event : Event) (write : Db → Db) (report : Db → α) : Handler α :=
  .stmt event (fun w => w.commit (write w.db)) fun w => .pure (report w.db)

def batch (event : Event) (write : Db → Except Failure Db) : Handler Unit :=
  Program.transact event fun w => (write w.db).map w.commit

end D1

def refuse {α : Type} (status : Nat) (error : String) : Handler α := .fail (.refused status error)

def raise {α : Type} (message : String) : Handler α := .fail (.thrown message)

end OmarchyPool
