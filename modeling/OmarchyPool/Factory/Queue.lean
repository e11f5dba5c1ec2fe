/-
# OmarchyPool.Factory.Queue -- the build queue and the statements that write it

`build_tasks`, and every UPDATE of it that takes, renews, fences or ends a lease.  A statement
is a `Write`: which rows it touches (`Write.guard`, its WHERE) and what it sets
(`Write.set`), each with the values the request binds.  `Queue.exec` applies it to every row
it matches, at once: D1 serialises writes.

`Ledger` adds a history to the queue: each lease taken, fenced and ended, in order.  It is
recorded from outside, by comparing a row before and after a write (`Task.trace`); no
statement reads it.
-/
import OmarchyPool.Factory.Selection

namespace OmarchyPool.Factory

set_option autoImplicit false

abbrev Gen := String

inductive Status where
  | queued | leased | done | staged | failed | cancelled
deriving DecidableEq, Repr

/-- What the statements read of the JSON in `params`. -/
structure Params where
  from_ : Option String := none
  upTo : Option String := none
  ring : Option String := none
  arch : Option Arch := none
  needsNative : Bool := false
  refused4k : Bool := false
  size : Option Nat := none
  review : Option TaskId := none
  task : Option TaskId := none
  anyHost : Option String := none
  builtWith : Option String := none
deriving DecidableEq, Repr

/-- `COALESCE(params.to, params.ring)`. -/
def Params.target (p : Params) : Option String := p.upTo.or p.ring

/-- The columns a report writes. -/
structure Outcome where
  sha256 : Option String := none
  filename : Option String := none
  version : Option String := none
  result : Option String := none
  stagedPrefix : Option String := none
  durationMs : Option Int := none
  logTail : Option String := none
deriving DecidableEq, Repr

structure Task where
  id : TaskId
  name : String
  arch : Arch
  kind : TaskKind
  trust : Trust
  owner : Option String := none
  pkgbuildRef : String := ""
  publish : Bool := true
  priority : Int := 100
  createdAt : Int := 0
  params : Params := {}
  pinnedTo : Option WorkerId := none
  status : Status := .queued
  attempts : Int := 0
  maxAttempts : Int := 3
  leaseOwner : Option WorkerId := none
  leaseExpiresAt : Option Int := none
  startedAt : Option Int := none
  finishedAt : Option Int := none
  error : Option String := none
  outcome : Outcome := {}
  stopOrder : Option String := none
  leaseGen : Option Gen := none
  lane : Option Mode := none
  size : Option Nat := none
  units : Option Nat := none
  diskGb : Option ℚ := none
  release : Option String := none
  claimId : Option String := none
  leaseMissed : Nat := 0
  hostLosses : Nat := 0
  reservedAt : Option Int := none
  independent : Option Independence := none
deriving DecidableEq, Repr

structure Queue where
  tasks : List Task
  nextTask : TaskId
  /-- `HOST_MAY_LEASE_SQL` and `HOST_AWAKE_SQL`: the registration's host is active, its owner
  listed, and no fresh report says it sleeps. -/
  mayLease : WorkerId → Bool

namespace Queue

def task? (q : Queue) (id : TaskId) : Option Task := q.tasks.find? (·.id == id)

def leased (q : Queue) : List Task := q.tasks.filter (·.status == .leased)

def leasedBy (q : Queue) (worker : WorkerId) : List Task :=
  q.tasks.filter fun t => t.status == .leased && t.leaseOwner == some worker

/-- What the units guard of a lease sums: the tasks' units, and the pool jobs' or the unit kept
for them, whichever is more. -/
def committed (q : Queue) (worker : WorkerId) (kept : Nat) : Nat :=
  (((q.leasedBy worker).filter (·.kind.isTask)).map (·.units.getD 0)).sum +
    max kept (((q.leasedBy worker).filter (!·.kind.isTask)).map (·.units.getD 0)).sum

end Queue

/-! ## Statements -/

def hostLossesMax : Nat := 2

/-- `LEASE_HELD`: still leased to the caller, in the lease it read, and not fenced. -/
def Task.heldAs (t : Task) (worker : WorkerId) (gen : Option Gen) : Bool :=
  t.status == .leased && t.leaseOwner == some worker && t.leaseGen == gen && t.stopOrder.isNone

/-- What `selectAndLease` binds to the lease. -/
structure LeaseWrite where
  worker : WorkerId
  expires : Int
  at_ : Int
  gen : Option Gen
  choice : Choice
  release : Option String
  claimId : Option String
  /-- The registration has a host, which must be active and awake. -/
  onHost : Bool
  /-- A host's claim: what is kept for pool jobs, and its units. -/
  room : Option (Nat × Int)

/-- What `handleFail` binds. -/
structure FailWrite where
  id : TaskId
  worker : WorkerId
  gen : Option Gen
  exhausted : Bool
  needsNative : Bool
  refused4k : Bool
  lost : Bool
  error : String
  durationMs : Option Int
  logTail : Option String
  at_ : Int

/-- What `handleComplete` binds: of a pool job, of a build that goes to staging, of a build in
the pool. -/
inductive Completion where
  | job (outcome : Outcome)
  | staged (outcome : Outcome) (builtWith : Option String)
  | built (outcome : Outcome)

def Completion.status : Completion → Status
  | .staged .. => .staged
  | _ => .done

/-- Each form sets its own columns. -/
def Completion.outcome (old : Outcome) : Completion → Outcome
  | .job o => { old with durationMs := o.durationMs, logTail := o.logTail, result := o.result }
  | .staged o _ => o
  | .built o =>
      { old with
        sha256 := o.sha256, filename := o.filename, version := o.version
        durationMs := o.durationMs, logTail := o.logTail }

/-- Which rows a cancel takes, statement by statement. -/
inductive CancelScope where
  /-- `handleCancelTask`. -/
  | task (id : TaskId)
  /-- A review's decision: by their keys, while in flight or staged. -/
  | rows (ids : List TaskId)
  /-- A registration removed, a build superseded, its staging dropped: by their keys alone. -/
  | anyRows (ids : List TaskId)
  /-- A contributor blocked. -/
  | owner (login : String)
  /-- A package blocked. -/
  | name (wanted : String)
  /-- The audits and trials queued for a build that is gone. -/
  | queuedFor (kind : TaskKind) (id : TaskId)

inductive Write where
  /-- `INSERT`: the row's id is the table's next. -/
  | enqueue (task : Task)
  | lease (l : LeaseWrite)
  /-- `REPLAY_SQL`. -/
  | replay (expires : Int) (worker : WorkerId) (claimId : String)
  /-- A heartbeat's renewal. -/
  | renew (expires : Int) (id : TaskId) (worker : WorkerId) (gen : Option Gen)
  | complete (id : TaskId) (worker : WorkerId) (gen : Option Gen) (completion : Completion) (at_ : Int)
  | fail (f : FailWrite)
  /-- `LOST_LEASE_SQL`. -/
  | lost (error : String) (id : TaskId) (worker : WorkerId) (gen : Gen) (at_ : Int)
  /-- The count of the claims that did not list a lease. -/
  | missed (n : Nat) (id : TaskId) (worker : WorkerId) (gen : Gen)
  /-- `REQUEUE_SQL`. -/
  | requeue (at_ : Int) (error : String) (id : TaskId) (worker : WorkerId) (stopOrder : Option String)
      (expiredBefore : Option Int)
  /-- `REVOKED_REQUEUE_SQL`. -/
  | revoked (error : String) (id : TaskId) (worker : WorkerId) (gen : Option Gen)
  /-- A stop's fence. -/
  | fence (order : String) (id : TaskId) (worker : WorkerId)
  /-- `BULK_FENCE_SQL`: a suspension fences every lease of the hosts it names. -/
  | fenceAll (workers : List WorkerId) (order : TaskId → String)
  | cancel (scope : CancelScope) (error : Option String) (at_ : Int)
  /-- The project's approved build is in the pool. -/
  | published (built : TaskId) (sha256 : Option String)
  /-- Retry at size. -/
  | retry (id : TaskId) (size : Nat)
  /-- A queued build asked again: pinned, and its params written anew. -/
  | pin (id : TaskId) (worker : Option WorkerId) (params : Params)
  /-- A host suspended or active, asleep or awake. -/
  | host (worker : WorkerId) (may : Bool)

/-- `out of memory at <n> GB…`. -/
def outOfMemory (error : Option String) : Bool :=
  error.any fun e => "out of memory at ".toList.isPrefixOf e.toList

/-- `SPENT` and `LAST` of `LOST_LEASE_SQL`. -/
def Task.spent (t : Task) : Bool := hostLossesMax ≤ t.hostLosses
def Task.last (t : Task) : Bool := t.spent && t.maxAttempts ≤ t.attempts

def CancelScope.covers (scope : CancelScope) (t : Task) : Bool :=
  let inFlight := t.status == .queued || t.status == .leased
  match scope with
  | .task id => t.id == id && inFlight
  | .rows ids => ids.contains t.id && (inFlight || t.status == .staged)
  | .anyRows ids => ids.contains t.id
  | .owner login => t.owner == some login && t.trust == .community && (inFlight || t.status == .staged)
  | .name wanted => t.name == wanted && (t.kind == .build || t.kind == .publish) &&
      (inFlight || t.status == .staged)
  | .queuedFor kind id => t.kind == kind && t.status == .queued && t.params.task == some id

namespace Write

/-- The rows a statement's WHERE matches. -/
def guard (q : Queue) (t : Task) : Write → Bool
  | .enqueue _ => false
  | .lease l => t.id == l.choice.id && t.status == .queued && (!l.onHost || q.mayLease l.worker) &&
      l.room.all fun room => (q.committed l.worker room.1 : Int) + l.choice.units ≤ room.2
  | .replay _ worker claimId => t.status == .leased && t.leaseOwner == some worker &&
      t.claimId == some claimId && t.stopOrder.isNone
  | .renew _ id worker gen => t.id == id && t.heldAs worker gen
  | .complete id worker gen _ _ => t.id == id && t.heldAs worker gen
  | .fail f => t.id == f.id && t.heldAs f.worker f.gen
  | .lost _ id worker gen _ => t.id == id && t.heldAs worker (some gen)
  | .missed _ id worker gen => t.id == id && t.status == .leased && t.leaseOwner == some worker &&
      t.leaseGen == some gen
  | .requeue _ _ id worker stopOrder expiredBefore => t.id == id && t.status == .leased &&
      t.leaseOwner == some worker && t.stopOrder == stopOrder &&
      expiredBefore.all fun before => t.leaseExpiresAt.any (· < before)
  | .revoked _ id worker gen => t.id == id && t.heldAs worker gen
  | .fence _ id worker => t.id == id && t.status == .leased && t.leaseOwner == some worker &&
      t.stopOrder.isNone
  | .fenceAll workers _ => t.status == .leased && t.leaseOwner.any workers.contains
  | .cancel scope _ _ => scope.covers t
  | .published built _ => t.id == built && t.status == .staged
  | .retry id _ => t.id == id && t.kind == .build && (t.status == .failed || t.status == .queued) &&
      outOfMemory t.error
  | .pin id _ _ => t.id == id && t.status == .queued
  | .host _ _ => false

/-- What a statement sets on the rows it matches. -/
def set (t : Task) : Write → Task
  | .lease l =>
      { t with
        status := .leased, leaseOwner := some l.worker, leaseExpiresAt := some l.expires
        startedAt := some l.at_, attempts := t.attempts + 1, error := none, stopOrder := none
        leaseGen := l.gen, lane := l.choice.lane, size := l.choice.size, units := some l.choice.units
        diskGb := l.choice.diskGb, release := l.release, claimId := l.claimId, leaseMissed := 0
        reservedAt := none, independent := l.choice.independent }
  | .replay expires _ _ => { t with leaseExpiresAt := some expires }
  | .renew expires _ _ _ => { t with leaseExpiresAt := some expires }
  | .complete _ _ _ completion at_ =>
      { t with
        status := completion.status, outcome := completion.outcome t.outcome
        finishedAt := some at_, leaseExpiresAt := none
        params := match completion with
          | .staged _ (some agent) => { t.params with builtWith := some agent }
          | _ => t.params }
  | .fail f =>
      { t with
        status := if f.exhausted then .failed else .queued
        finishedAt := if f.exhausted then some f.at_ else none
        error := some f.error
        outcome := { t.outcome with durationMs := f.durationMs, logTail := f.logTail }
        leaseOwner := if f.exhausted then some f.worker else none
        leaseExpiresAt := none
        priority := t.priority + 10
        independent := if f.exhausted then t.independent else none
        attempts := t.attempts - (if f.needsNative then 1 else 0) - (if f.lost then 1 else 0)
        pinnedTo := if f.needsNative then none else t.pinnedTo
        params := if f.needsNative then
          { t.params with needsNative := true, refused4k := f.refused4k || t.params.refused4k }
          else t.params
        hostLosses := if f.lost then t.hostLosses + 1 else t.hostLosses }
  | .lost error _ _ _ at_ =>
      { t with
        status := if t.last then .failed else .queued
        finishedAt := if t.last then some at_ else none
        leaseOwner := if t.last then t.leaseOwner else none
        attempts := if t.spent then t.attempts else max (t.attempts - 1) 0
        priority := if t.spent then t.priority + 10 else t.priority
        error := some (error ++ if t.spent then " — lost too often on its host: the attempt is spent"
          else "; the attempt is given back")
        independent := if t.last then t.independent else none
        hostLosses := t.hostLosses + 1, leaseExpiresAt := none, leaseMissed := 0 }
  | .missed n _ _ _ => { t with leaseMissed := n }
  | .requeue at_ error _ _ _ _ =>
      let failed : Bool := t.maxAttempts ≤ t.attempts
      { t with
        status := if failed then .failed else .queued
        finishedAt := if failed then some at_ else none
        error := some error
        leaseOwner := if failed then t.leaseOwner else none
        independent := if failed then t.independent else none
        leaseExpiresAt := none, priority := t.priority + 10, stopOrder := none }
  | .revoked error _ _ _ =>
      { t with
        status := .queued, finishedAt := none, error := some error, leaseOwner := none
        leaseExpiresAt := none, attempts := max (t.attempts - 1) 0, independent := none, leaseMissed := 0 }
  | .fence order _ _ => { t with stopOrder := some order }
  | .fenceAll _ order => { t with stopOrder := some (order t.id) }
  | .cancel scope error at_ =>
      -- `handleCancelTask` writes the status and the time alone.
      match scope with
      | .task _ => { t with status := .cancelled, finishedAt := some at_ }
      | .rows _ => { t with status := .cancelled, error, leaseExpiresAt := none, finishedAt := t.finishedAt.or (some at_) }
      | _ => { t with status := .cancelled, error }
  | .published _ sha256 =>
      { t with status := .done, publish := true, outcome := { t.outcome with sha256 := sha256.or t.outcome.sha256 } }
  | .retry _ size =>
      { t with
        status := .queued, finishedAt := none, leaseOwner := none, leaseExpiresAt := none
        attempts := min t.attempts (t.maxAttempts - 1), params := { t.params with size := some size } }
  | .pin _ worker params => { t with pinnedTo := worker, params }
  | .enqueue _ | .host _ _ => t

end Write

/-- A row as an INSERT leaves it: the columns of its leases are the table's defaults. -/
def Task.inserted (t : Task) (id : TaskId) : Task where
  id := id
  name := t.name
  arch := t.arch
  kind := t.kind
  trust := t.trust
  owner := t.owner
  pkgbuildRef := t.pkgbuildRef
  publish := t.publish
  priority := t.priority
  createdAt := t.createdAt
  params := t.params
  pinnedTo := t.pinnedTo

namespace Queue

/-- A row after a statement. -/
def after (q : Queue) (w : Write) (t : Task) : Task := if w.guard q t then w.set t else t

def exec (q : Queue) (w : Write) : Queue where
  tasks := q.tasks.map (q.after w) ++
    match w with
    | .enqueue task => [task.inserted q.nextTask]
    | _ => []
  nextTask := match w with
    | .enqueue _ => q.nextTask + 1
    | _ => q.nextTask
  mayLease := match w with
    | .host worker may => Function.update q.mayLease worker may
    | _ => q.mayLease

/-- Whether a statement changed a row: what `meta.changes` and RETURNING tell the request. -/
def changes (q : Queue) (w : Write) : Bool := q.tasks.any (w.guard q)

/-- The first row a statement RETURNs. -/
def returned (q : Queue) (w : Write) : Option Task := (q.tasks.find? (w.guard q)).map (w.set ·)

end Queue

/-! ## The history of leases -/

/-- The path a lease ended by. -/
inductive Ending where
  | completed | failed | lost | requeued | revoked | cancelled | other
deriving DecidableEq, Repr

def Write.ending : Write → Ending
  | .complete .. => .completed
  | .fail _ => .failed
  | .lost .. => .lost
  | .requeue .. => .requeued
  | .revoked .. => .revoked
  | .cancel .. => .cancelled
  | _ => .other

inductive LeaseEvent where
  | leased (task : TaskId) (worker : Option WorkerId) (gen : Option Gen)
  | fenced (task : TaskId) (gen : Option Gen)
  | ended (task : TaskId) (gen : Option Gen) (path : Ending)
deriving DecidableEq, Repr

namespace Task

/-- The lease of a row, when it is leased. -/
def lease? (t : Task) : Option (Option Gen) := if t.status = .leased then some t.leaseGen else none

/-- What a change of a row says of its lease. -/
def trace (path : Ending) (t t' : Task) : List LeaseEvent :=
  if t.lease? = t'.lease? then
    if t.stopOrder.isNone && t'.stopOrder.isSome then (t.lease?.map fun gen => .fenced t.id gen).toList else []
  else (t.lease?.map fun gen => .ended t.id gen path).toList ++
    (t'.lease?.map fun gen => .leased t.id t'.leaseOwner gen).toList

end Task

structure Ledger where
  queue : Queue
  history : List LeaseEvent

/-- A new table. -/
def Ledger.empty (mayLease : WorkerId → Bool) : Ledger := ⟨⟨[], 1, mayLease⟩, []⟩

def Ledger.exec (w : Write) (s : Ledger) : Ledger where
  queue := s.queue.exec w
  history := s.history ++ s.queue.tasks.flatMap fun t => t.trace w.ending (s.queue.after w t)

end OmarchyPool.Factory
