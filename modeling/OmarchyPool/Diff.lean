/-
# OmarchyPool.Diff -- `GET /releases/:ring/diff`

What changed between two releases of a ring.  `diffFromDeltas` folds the deltas of the
releases between them, `fullSides` compares their whole lists; `handleReleaseDiff` asks the
first and falls back on the second.  Both give two lists of packages and their sizes, and
`answer` sorts out of them what was added, removed and upgraded.

`localeCompare` is the collation of the runtime: a parameter of everything that sorts.
-/
import OmarchyPool.Checkpoint
import OmarchyPool.Lib.OrderedMap
import OmarchyPool.Lib.Sorting

namespace OmarchyPool

open Lib

set_option autoImplicit false

/-- One source's build of a name in a release, as the diff lists it. -/
structure Side where
  name : String
  arch : Arch
  version : String
  sha256 : String
  source : String
deriving DecidableEq, Repr

def Package.side (p : Package) : Side := ⟨p.name, p.repoArch, p.version, p.sha256, p.source⟩

inductive DeltaOp where
  | add | remove
deriving DecidableEq, Repr

/-- A row of `release_deltas` joined with its package, which GC may have deleted. -/
structure DeltaRow where
  releaseId : ReleaseId
  op : DeltaOp
  packageId : PackageId
  package : Option Package
deriving DecidableEq, Repr

/-- The two sides' rows, and the sizes of the whole sides. -/
structure DiffSides where
  before : List Side
  after : List Side
  countBefore : Nat
  countAfter : Nat
deriving DecidableEq, Repr

/-! ## The fold of the deltas -/

/-- The stored size of a side: the whole release, or its slices of one architecture. -/
def Release.size (r : Release) : Option Arch → Option Nat
  | none => r.packageCount
  | some arch => r.sources.map fun slices => ((slices.filter (·.arch == arch)).map (·.packages)).sum

namespace Db

/-- `MIN(seq)` over a ring's checkpoints. -/
def firstCheckpoint (db : Db) (ring : Ring) : Option Nat :=
  (((db.ofRing ring).filter (·.checkpoint)).map (·.seq)).min?

/-- `chain`: down the parents of `cur` until the row whose parent is `from_`, the floor, or
`fuel` hops. -/
def chainTo (db : Db) (from_ : ReleaseId) (floor : Nat) : Nat → Release → List Release
  | 0, cur => [cur]
  | fuel + 1, cur =>
      cur :: if cur.parentId ≠ some from_ ∧ floor < cur.seq then
        match cur.parentId.bind db.release? with
        | some parent => db.chainTo from_ floor fuel parent
        | none => []
      else []

/-- The releases after `from_` up to `upTo`, newest first. -/
def chain (db : Db) (from_ upTo : ReleaseId) (floor : Nat) : List Release :=
  match (db.release? upTo).filter fun _ => upTo ≠ from_ with
  | some row => db.chainTo from_ floor (checkpointEvery * 4) row
  | none => []

/-- `release_deltas d LEFT JOIN packages p`, of one release. -/
def deltaRowsOf (db : Db) (release : ReleaseId) : List DeltaRow :=
  let row (op : DeltaOp) (id : PackageId) : DeltaRow := ⟨release, op, id, db.package? id⟩
  ((db.releaseDeltas release).add.sort (· ≤ ·)).map (row .add) ++
    ((db.releaseDeltas release).remove.sort (· ≤ ·)).map (row .remove)

def deltaRows (db : Db) (releases : List ReleaseId) : List DeltaRow := releases.flatMap db.deltaRowsOf

end Db

/-- An op that meets its opposite cancels it. -/
def netStep (net : OrderedMap PackageId DeltaRow) (r : DeltaRow) : OrderedMap PackageId DeltaRow :=
  match net.get r.packageId with
  | some prev => if prev.op ≠ r.op then net.delete r.packageId else net.set r.packageId r
  | none => net.set r.packageId r

/-- The rows of one architecture, oldest release first, folded. -/
def netOf (chain : List ReleaseId) (arch : Option Arch) (rows : List DeltaRow) :
    OrderedMap PackageId DeltaRow :=
  let age (r : DeltaRow) : Nat := chain.idxOf r.releaseId
  let asked := rows.filter fun r => arch.all fun a => (r.package.map (·.repoArch)) == some a
  (asked.insertionSort fun x y => age y ≤ age x).foldl netStep []

/-- One side of the fold. -/
def netSide (net : OrderedMap PackageId DeltaRow) (op : DeltaOp) : List Side :=
  ((net.map (·.2)).filter (·.op == op)).filterMap fun r => r.package.map Package.side

/-- `none` when the fold cannot answer. -/
def diffFromDeltas (from_ : Option Release) (upTo : Release) (arch : Option Arch) :
    Handler (Option DiffSides) :=
  match from_ with
  | none => pure none
  | some from_ =>
  match from_.size arch, upTo.size arch with
  | some before, some after => do
      match ← D1.query .other (·.firstCheckpoint upTo.ring) with
      | none => pure none
      | some floor =>
          if from_.seq < floor then pure none else do
          let chain ← D1.query .other (·.chain from_.id upTo.id floor)
          if upTo.id ≠ from_.id ∧ chain.getLast?.bind (·.parentId) ≠ some from_.id then pure none
          else if chain.any (·.seq ≤ floor) then pure none else do
          let ids := chain.map (·.id)
          let rows ← if chain.isEmpty then pure [] else D1.query .other (·.deltaRows ids)
          if rows.any (·.package.isNone) then pure none else
          let net := netOf ids arch rows
          pure (some ⟨netSide net .remove, netSide net .add, before, after⟩)
  | _, _ => pure none

/-! ## The full lists -/

/-- The members of a side, or 410: its list was pruned. -/
def membersOrGone (r : Release) : Handler Members :=
  (releaseMembers r.id).rescue fun _ =>
    refuse 410 s!"release {r.id} is outside retention: its package list was pruned, only its summary remains"

def Db.sideRows (db : Db) (members : Members) (arch : Option Arch) : List Side :=
  ((db.joined (members.rows db)).filter fun p => arch.all (· == p.repoArch)).map Package.side

def fullSides (from_ : Option Release) (upTo : Release) (arch : Option Arch) : Handler DiffSides := do
  let ofTo ← membersOrGone upTo
  match from_ with
  | none => do
      let after ← D1.query .other (·.sideRows ofTo arch)
      pure ⟨[], after, 0, after.length⟩
  | some from_ => do
      let ofFrom ← membersOrGone from_
      let before ← D1.query .other (·.sideRows ofFrom arch)
      let after ← D1.query .other (·.sideRows ofTo arch)
      pure ⟨before, after, before.length, after.length⟩

/-! ## The answer -/

/-- `${source}\0${name}\0${arch}`. -/
def Side.key (p : Side) : String := p.source ++ "\x00" ++ p.name ++ "\x00" ++ p.arch.name

structure Upgrade where
  name : String
  arch : Arch
  from_ : String
  upTo : String
  source : String
deriving DecidableEq, Repr

structure DiffAnswer where
  added : List Side
  removed : List Side
  upgraded : List Upgrade
  countAdded : Nat
  countRemoved : Nat
  countUpgraded : Nat
  countBefore : Nat
  countAfter : Nat
deriving DecidableEq, Repr

section Answer

variable (localeCompare : String → String → Ordering)

/-- By name, then architecture, then source. -/
def byName (x y : String × String × String) : Ordering :=
  (localeCompare x.1 y.1).then ((localeCompare x.2.1 y.2.1).then (localeCompare x.2.2 y.2.2))

/-- `list.sort(byName)`. -/
def sortByName {α : Type} (label : α → String × String × String) (list : List α) : List α :=
  sortBy (fun x y => byName localeCompare (label x) (label y)) list

def Side.label (p : Side) : String × String × String := (p.name, p.arch.name, p.source)

def Upgrade.label (u : Upgrade) : String × String × String := (u.name, u.arch.name, u.source)

/-- The version that was, when the bytes are others. -/
def upgradeOf (was p : Side) : Option Upgrade :=
  if was.sha256 ≠ p.sha256 then some ⟨p.name, p.arch, was.version, p.version, p.source⟩ else none

/-- The sides of `after` whose key `before` has not. -/
def newSides (before after : OrderedMap String Side) : List Side :=
  (after.filter fun (k, _) => (before.get k).isNone).map (·.2)

def upgrades (before after : OrderedMap String Side) : List Upgrade :=
  after.filterMap fun (k, p) => (before.get k).bind (upgradeOf · p)

def answer (sides : DiffSides) : DiffAnswer :=
  let before := OrderedMap.ofList (sides.before.map fun p => (p.key, p))
  let after := OrderedMap.ofList (sides.after.map fun p => (p.key, p))
  let added := newSides before after
  let upgraded := upgrades before after
  let removed := newSides after before
  { added := sortByName localeCompare Side.label added
    removed := sortByName localeCompare Side.label removed
    upgraded := sortByName localeCompare Upgrade.label upgraded
    countAdded := added.length
    countRemoved := removed.length
    countUpgraded := upgraded.length
    countBefore := sides.countBefore
    countAfter := sides.countAfter }

/-- The answer with the rows of the two releases. -/
structure DiffReport where
  ring : Ring
  from_ : Option Release
  upTo : Release
  arch : Option Arch
  diff : DiffAnswer
deriving DecidableEq, Repr

/-- `upTo` and `from_` are 0 when the query has none. -/
structure DiffQuery where
  ring : String
  upTo : ReleaseId := 0
  from_ : ReleaseId := 0
  arch : Option String := none

def handleReleaseDiff (query : DiffQuery) : Handler DiffReport :=
  match isRing query.ring with
  | none => refuse 404 "unknown ring"
  | some ring => do
      let head ← if query.upTo ≠ 0 then pure none else D1.query .other (·.ringHead ring)
      let upTo := if query.upTo ≠ 0 then query.upTo else (head.map (·.id)).getD 0
      match ← D1.query .other (fun db => (db.release? upTo).filter (·.ring == ring)) with
      | none => refuse 404 s!"release {upTo} is not a {ring.name} release"
      | some toRow => do
          let from_ := if query.from_ ≠ 0 then query.from_ else toRow.parentId.getD 0
          let fromRow ← if from_ ≠ 0 then D1.query .other (·.release? from_) else pure none
          if from_ ≠ 0 ∧ fromRow.isNone then refuse 404 s!"release {from_} does not exist" else
          if query.arch.any fun text => (isRepoArch text).isNone then refuse 400 "unknown arch" else do
          let arch := query.arch.bind isRepoArch
          -- The deltas answer nearly every diff; the full lists the rest.
          let sides ← match ← diffFromDeltas fromRow toRow arch with
            | some sides => pure sides
            | none => fullSides fromRow toRow arch
          pure ⟨ring, fromRow, toRow, arch, answer localeCompare sides⟩

end Answer

end OmarchyPool
