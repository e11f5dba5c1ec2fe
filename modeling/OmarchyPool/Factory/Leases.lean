/-
# OmarchyPool.Factory.Leases -- the requests that take, renew and end leases

Each route of the factory as a program (`Lib.Program`) of the statements it awaits: what it
reads of the queue, and each UPDATE on its own.  A claim reads the leases, then the
candidates, chooses (`select`), and tries to lease its first choices one after another.  A
report reads its task (`owned`) and then writes under `LEASE_HELD`.

What a request reads of other tables (the fleet, the packages' sizes, the registration's
labels) is data of the request: nothing here writes it.  The candidates a claim's bounded
reads bring are any part of the queued rows its filters let through (`Claim.window`).
-/
import OmarchyPool.Factory.Queue
import OmarchyPool.Lib.Program

namespace OmarchyPool.Factory

open Lib

set_option autoImplicit false

/-- The statements of a request: a read, or one of the queue's writes. -/
inductive Event where
  | read
  | write (w : Write)

/-- Why a request is refused. -/
inductive Refusal where
  | noSuchTask | otherTask | notYours | otherLease | stopping | revoked | moved | badRequest
deriving DecidableEq, Repr

abbrev Handler (α : Type) := Program Ledger Event Refusal α

namespace Handler

def query {α : Type} (read : Queue → α) : Handler α := Program.query .read fun s => read s.queue

/-- An UPDATE, with whether it changed a row. -/
def update (w : Write) : Handler Bool :=
  .stmt (.write w) (Ledger.exec w) fun s => .pure (s.queue.changes w)

/-- An UPDATE … RETURNING *, with the first row. -/
def returning (w : Write) : Handler (Option Task) :=
  .stmt (.write w) (Ledger.exec w) fun s => .pure (s.queue.returned w)

def refuse {α : Type} (why : Refusal) : Handler α := .fail why

end Handler

open Handler

/-! ## Reports -/

/-- The pool's own release, the releases it revokes and the memory of a unit; and who issued an
order, and why. -/
structure Brain where
  version : String := ""
  revoked : String → Bool := fun _ => false
  memGb : Nat := 2
  order : String → String × Option String := fun _ => ("?", none)

/-- Who calls: a registration with its own token, or a job with the token of one lease. -/
inductive Actor where
  | worker (id : WorkerId)
  | job (task : TaskId) (worker : WorkerId) (gen : Option Gen)
deriving DecidableEq, Repr

def Actor.name : Actor → WorkerId
  | .worker id => id
  | .job _ holder _ => holder

def Actor.gen : Actor → Option Gen
  | .worker _ => none
  | .job _ _ lease => lease

/-- A job token is for its own task. -/
def Actor.mayAct (id : TaskId) : Actor → Bool
  | .worker _ => true
  | .job task _ _ => task == id

/-- `owned`: the task, while the caller holds the lease it names. -/
def owned (id : TaskId) (actor : Actor) : Handler Task := do
  unless actor.mayAct id do refuse .otherTask
  match ← query (·.task? id) with
  | none => refuse .noSuchTask
  | some task =>
      if task.status ≠ .leased ∨ task.leaseOwner ≠ some actor.name then refuse .notYours
      else if task.leaseGen ≠ actor.gen then refuse .otherLease
      else if task.stopOrder.isSome then refuse .stopping
      else pure task

/-- `leaseMoved`: the write changed nothing, and the caller hears what became of the task. -/
def leaseMoved {α : Type} (id : TaskId) (actor : Actor) : Handler α := do
  let _ ← owned id actor
  refuse .moved

def Brain.revokes (b : Brain) (task : Task) : Bool := task.release.any b.revoked

/-- A report's write under `LEASE_HELD`. -/
def reportBy (id : TaskId) (actor : Actor) (w : Write) : Handler Unit := do
  unless ← update w do leaseMoved id actor

def handleHeartbeat (b : Brain) (id : TaskId) (actor : Actor) (expires : Int) : Handler Unit := do
  let task ← owned id actor
  if b.revokes task then refuse .revoked
  else reportBy id actor (.renew expires id actor.name task.leaseGen)

/-- A completion's body, and what its checks outside the queue found. -/
structure Report where
  outcome : Outcome := {}
  /-- The files the completion names are in staging, and the gate did not fail. -/
  staged : Bool := true
  /-- The package is in the pool's index. -/
  indexed : Bool := true
  /-- The agent the registration ran. -/
  agent : Option String := none
  at_ : Int := 0
deriving DecidableEq, Repr

/-- A row the queue inserts for a job of the project. -/
def jobTask (kind : TaskKind) (name : String) (arch : Arch) (params : Params) : Task :=
  { id := 0, name, arch, kind, trust := .project, params, priority := 40, publish := kind == .promote }

/-- The staged builds before this one give way, each with the audits and trials queued for it. -/
def supersede (error : String) : List Task → Handler Unit
  | [] => pure ()
  | o :: rest => do
      let _ ← update (.cancel (.anyRows [o.id]) (some error) 0)
      let _ ← update (.cancel (.queuedFor .audit o.id) (some "the build it audited was superseded") 0)
      let _ ← update (.cancel (.queuedFor .trial o.id) (some "the build it tried was superseded") 0)
      supersede error rest

/-- What a finished pool job does to the queue: the last sync of a tick queues a promotion, and
a published build's row says so. -/
def afterJob (task : Task) (report : Report) : Handler Unit := do
  match task.kind with
  | .sync =>
      let idle ← query fun q => !q.tasks.any fun t =>
        (t.status == .queued || t.status == .leased) &&
          (t.kind == .sync && t.id != task.id ||
            t.kind == .promote && t.params.from_ == some "edge" && t.params.upTo == some "rc")
      if idle then
        let _ ← update (.enqueue
          { jobTask .promote "promote" .x86_64 { from_ := some "edge", upTo := some "rc" } with priority := 50 })
  | .publish =>
      match task.params.task with
      | some built => let _ ← update (.published built report.outcome.sha256)
      | none => pure ()
  | _ => pure ()

def handleComplete (b : Brain) (id : TaskId) (actor : Actor) (report : Report) : Handler Unit := do
  let task ← owned id actor
  if b.revokes task then refuse .revoked
  else if task.kind ≠ .build then
    reportBy id actor (.complete id actor.name task.leaseGen (.job report.outcome) report.at_)
    afterJob task report
  else if report.outcome.sha256.isNone ∨ report.outcome.filename.isNone then refuse .badRequest
  else if task.trust = .community ∨ task.params.review.isSome then
    if !report.staged then refuse .badRequest
    else
      let builtWith := if task.params.review.isSome then report.agent else none
      reportBy id actor (.complete id actor.name task.leaseGen (.staged report.outcome builtWith) report.at_)
      let older ← query fun q => q.tasks.filter fun t => t.kind == .build && t.trust == task.trust &&
        t.status == .staged && t.name == task.name && t.arch == task.arch && t.id < id
      supersede ("superseded by task " ++ toString id ++
        report.outcome.version.elim "" fun version => " (" ++ version ++ ")") older
      let _ ← update (.enqueue (jobTask .audit task.name task.arch { task := some id }))
      if task.params.review.isSome then
        let _ ← update (.enqueue (jobTask .trial task.name task.arch { task := some id }))
  else if task.publish && !report.indexed then refuse .badRequest
  else reportBy id actor (.complete id actor.name task.leaseGen (.built report.outcome) report.at_)

/-- A failure's body, and what it reads of the registration. -/
structure Failure where
  error : String := "build failed"
  durationMs : Option Int := none
  logTail : Option String := none
  final : Bool := false
  needsNative : Bool := false
  lost : Bool := false
  oom : Bool := false
  /-- The labels of a legacy registration say it is emulated. -/
  emulated : Bool := false
  /-- The host's report says its lane of the architecture is emulated on 4K pages. -/
  on4k : Bool := false
  at_ : Int := 0
deriving DecidableEq, Repr

/-- `.slice(0, 2000)`. -/
def cut (text : String) : String := String.ofList (text.toList.take 2000)

/-- The error a failed row keeps. -/
def Failure.text (b : Brain) (f : Failure) (task : Task) (oom lostSpent : Bool) : String :=
  cut (if oom then
      "out of memory at " ++ toString (task.units.getD 1 * b.memGb) ++ " GB" ++
        (if task.kind = .build then " (size " ++ toString (task.size.getD 1) ++ ")" else "") ++
        " — the engine killed it: " ++ cut f.error
    else if lostSpent then "lost a third time on its host, the attempt spent: " ++ cut f.error
    else cut f.error)

/-- What `handleFail` decides of the row it read. -/
def Failure.write (b : Brain) (f : Failure) (task : Task) (id : TaskId) (actor : Actor) : FailWrite :=
  let hostLease := task.leaseGen.isSome
  let oom := hostLease && f.oom
  let lost := hostLease && f.lost && task.hostLosses < hostLossesMax
  let lostSpent := hostLease && f.lost && !lost
  let emulatedLane := task.lane == some .emulated ||
    (task.lane.isNone && task.leaseGen.isNone && f.emulated)
  let needsNative := !lost && f.needsNative && emulatedLane && !task.params.refused4k
  { id, worker := actor.name, gen := task.leaseGen, needsNative, lost
    refused4k := needsNative && (task.params.needsNative || (hostLease && f.on4k))
    exhausted := !needsNative && !lost && (f.final || task.maxAttempts ≤ task.attempts)
    error := f.text b task oom lostSpent
    durationMs := f.durationMs, logTail := f.logTail, at_ := f.at_ }

def revokedError (b : Brain) (task : Task) : String :=
  "leased on " ++ task.release.getD "" ++ ", which the pool's release " ++ b.version ++
    " revokes: nothing it sent on that release is taken; the attempt is given back"

def handleFail (b : Brain) (id : TaskId) (actor : Actor) (f : Failure) : Handler Unit := do
  let task ← owned id actor
  if b.revokes task then
    reportBy id actor (.revoked (revokedError b task) id actor.name task.leaseGen)
  else reportBy id actor (.fail (f.write b task id actor))

/-! ## Leases taken back -/

def hostLeaseGraceMs : Int := 2 * minute

/-- One lease of a host, compared with what its claim lists. -/
def reconcileOne (b : Brain) (worker : WorkerId) (listed : List (TaskId × Gen)) (at_ : Int) (t : Task) :
    Handler Unit :=
  match t.leaseGen with
  | none => pure ()
  | some gen =>
      if t.stopOrder.isSome then pure ()
      else
        let seen := listed.contains (t.id, gen)
        let missed := if seen then 0 else t.leaseMissed + 1
        if !seen && 2 ≤ missed && t.startedAt.getD at_ ≤ at_ - hostLeaseGraceMs then do
          if b.revokes t then
            let _ ← update (.revoked (revokedError b t) t.id worker t.leaseGen)
          else
            let _ ← update (.lost ("lease by " ++ worker ++ " lost: two claims of its host did not list it")
              t.id worker gen at_)
        else if missed ≠ t.leaseMissed then do
          let _ ← update (.missed missed t.id worker gen)
        else pure ()

def reconcileAll (b : Brain) (worker : WorkerId) (listed : List (TaskId × Gen)) (at_ : Int) :
    List Task → Handler Unit
  | [] => pure ()
  | t :: rest => do
      reconcileOne b worker listed at_ t
      reconcileAll b worker listed at_ rest

/-- `reconcileHost`. -/
def reconcileHost (b : Brain) (worker : WorkerId) (listed : List (TaskId × Gen)) (at_ : Int) :
    Handler Unit := do
  let held ← query (·.leasedBy worker)
  reconcileAll b worker listed at_ held

/-- Who stopped a task, on which worker, and why. -/
def stopError (b : Brain) (worker : WorkerId) (order : String) (leaseEnded : Bool) : String :=
  cut ("stopped on " ++ worker ++ " by " ++ (b.order order).1 ++
    ((b.order order).2.elim "" fun reason => ": " ++ reason) ++ if leaseEnded then "; its lease ended" else "")

/-- The cron's requeues, one by one. -/
def requeueAll (b : Brain) (at_ : Int) : List Task → Handler Unit
  | [] => pure ()
  | t :: rest => do
      let worker := t.leaseOwner.getD ""
      let error := t.stopOrder.elim ("lease by " ++ worker ++ " expired")
        fun order => stopError b worker order true
      let _ ← update (.requeue at_ error t.id worker t.stopOrder (some at_))
      requeueAll b at_ rest

def requeueExpiredLeases (b : Brain) (at_ : Int) : Handler Unit := do
  let expired ← query fun q => q.tasks.filter fun t =>
    t.status == .leased && t.leaseExpiresAt.any (· < at_)
  requeueAll b at_ expired

/-- A claim that ends a stop's fence (`takeOrders`): the fenced task, unless the claim still lists
it, back to the queue. -/
def endStop (b : Brain) (order : String) (id : TaskId) (worker : WorkerId) (listed : List (TaskId × Gen))
    (at_ : Int) : Handler Unit := do
  match ← query (·.task? id) with
  | none => pure ()
  | some t =>
      if t.status = .leased ∧ t.leaseOwner = some worker ∧ t.stopOrder = some order then
        unless t.leaseGen.any fun gen => listed.contains (t.id, gen) do
          let _ ← update (.requeue at_ (stopError b worker order false) t.id worker (some order) none)

def handleRetryAtSize (id : TaskId) (size largest : Nat) (r : Rules) : Handler Unit := do
  match ← query (·.task? id) with
  | none => refuse .noSuchTask
  | some t =>
      let most := if t.trust = .community then r.communityMaxSize else r.maxSize
      if t.kind ≠ .build ∨ outOfMemory t.error = false ∨ (t.status ≠ .failed ∧ t.status ≠ .queued) then
        refuse .badRequest
      else if size < 1 ∨ most < size ∨ largest < size then refuse .badRequest
      else unless ← update (.retry id size) do refuse .moved

/-! ## Claims -/

def ringMover (kind : TaskKind) : Bool := kind ∈ [.promote, .rollback, .render, .security]

/-- `ringLock`: a job that moves a ring is no candidate while another holds a lease on the ring. -/
def ringLock (q : Queue) (t : Task) : Bool :=
  !(ringMover t.kind && q.tasks.any fun l => l.status == .leased && l.trust == .project &&
    ringMover l.kind && l.id != t.id &&
    (l.kind == .security || t.kind == .security ||
      l.params.target.isSome && l.params.target == t.params.target))

/-- `AGENT_SCOPE`: work for a model. -/
def Task.model (t : Task) : Bool :=
  t.kind == .audit || t.kind == .build &&
    ("draft:".toList.isPrefixOf t.pkgbuildRef.toList || "review:".toList.isPrefixOf t.pkgbuildRef.toList)

/-- The project's copy of a package: a project build that answers a contributor's. -/
def Task.isCopy (t : Task) : Bool := t.kind == .build && t.trust == .project && t.params.review.isSome

/-- The owner of the contributor's build of the same package that the copy answers. -/
def requester (q : Queue) (t : Task) : Option String :=
  (t.params.review.bind q.task?).bind fun answered => if answered.name = t.name then answered.owner else none

/-- A claim: the claimer, the fleet and the rules as it reads them, and what its other reads give. -/
structure Claim where
  me : Member
  others : List Member := []
  models : List ModelSeen := []
  rules : Rules
  now : Int
  version : Option String := none
  claimId : Option String := none
  onHost : Bool := true
  /-- The generation of each try: random, never the attempt's number. -/
  gen : Nat → Gen
  /-- What the bounded reads bring of the rows the filters let through. -/
  window : List Task → List Task := id
  /-- The build this claim itself marked the host for. -/
  marked : Option TaskId := none
  packageSize : String → Option Nat := fun _ => none
  packageDisk : String → Option ℚ := fun _ => none
  nativeMs : String → Arch → Option Int := fun _ _ => none
  solo : Option String := none
  agentOf : WorkerId → Option String := fun _ => none
  ownerOf : WorkerId → Option String := fun _ => none

def leaseMs : Int := 30 * minute
def leaseTries : Nat := 3

namespace Claim

/-- `scopeOf`: the filters of every candidate read. -/
def inScope (k : Claim) (q : Queue) (t : Task) : Bool :=
  k.me.kinds.contains t.kind && t.pinnedTo.all (· == k.me.id) && (k.me.probeOk || !t.model) &&
    !(k.me.legacy && k.me.lanes.any (·.mode == .emulated) && t.params.needsNative) &&
    ringLock q t &&
    (k.me.owner.all fun owner => !(t.isCopy && t.params.anyHost.isNone && k.solo != some owner &&
      (t.owner == some owner || requester q t == some owner))) &&
    !(k.me.legacy && k.me.scope == .project && t.kind == .build && t.trust != .project) &&
    !(k.me.legacy && k.me.scope != .project && t.trust != .community)

def candidateOf (k : Claim) (q : Queue) (t : Task) : Candidate :=
  let audited := if t.kind = .audit then t.params.task.bind q.task? else none
  let build := t.kind == .build
  { id := t.id, name := t.name, kind := t.kind, arch := t.arch, trust := t.trust, owner := t.owner
    priority := t.priority, queuedAt := t.createdAt, pinnedTo := t.pinnedTo
    needsNative := t.params.needsNative, refused4k := t.params.refused4k, model := t.model
    size := if build then t.params.size.or (k.packageSize t.name) else none
    diskGb := if build then k.packageDisk t.name else none
    nativeMs := k.nativeMs t.name t.arch, reservedAt := t.reservedAt, jobArch := t.params.arch
    publishBound := t.isCopy || audited.any (·.isCopy)
    requesters := if t.isCopy then ([t.owner, requester q t].reduceOption.filter (· ≠ "")).dedup else []
    anyHost := if t.isCopy then t.params.anyHost else none
    solo := if t.isCopy then k.solo else none
    builtBy := audited.bind (·.leaseOwner)
    builtWith := audited.bind fun au => au.params.builtWith.or (au.leaseOwner.bind k.agentOf)
    builtOn := audited.bind fun au => au.leaseOwner.bind k.ownerOf }

/-- The rows a claim reads: some of those queued and in scope, and the build it marked itself. -/
def rows (k : Claim) (q : Queue) : List Task :=
  let inScope := q.tasks.filter fun t => t.status == .queued && k.inScope q t
  (k.window inScope).filter (inScope.contains ·) ++
    q.tasks.filter fun t => t.status == .queued && t.kind == .build && k.marked == some t.id

def heldOf (k : Claim) (t : Task) : Held where
  task := t.id
  byWorker := t.leaseOwner.getD ""
  kind := t.kind
  arch := t.arch
  lane := t.lane
  units := t.units.getD (unitsOf t.kind t.size k.rules)
  model := t.model
  trust := t.trust
  owner := t.owner
  diskGb := t.diskGb.getD 0

def fleet (k : Claim) (leases : List Held) : Fleet := ⟨k.others ++ [k.me], leases, k.models⟩

/-- The lease of the claim's try. -/
def leaseWrite (k : Claim) (candidates : List Candidate) (try_ : Nat) (c : Choice) : LeaseWrite where
  worker := k.me.id
  expires := k.now + leaseMs
  at_ := k.now
  gen := if k.me.legacy then none else some (k.gen try_)
  choice := c
  release := k.version
  claimId := if k.me.legacy then none else k.claimId
  onHost := k.onHost
  room := if k.me.legacy then none else
    some (if (candidates.find? (·.id == c.id)).any (·.kind.isTask) then k.rules.jobReserved else 0, k.me.units)

end Claim

/-- The lease, by the first choice no other claim took meanwhile. -/
def leaseFirst (k : Claim) (candidates : List Candidate) (try_ : Nat) : List Choice → Handler (Option Task)
  | [] => pure none
  | c :: rest => do
      match ← returning (.lease (k.leaseWrite candidates try_ c)) with
      | some task => pure (some task)
      | none => leaseFirst k candidates (try_ + 1) rest

def selectAndLease (k : Claim) : Handler (Option Task) := do
  let some_ ← query fun q => q.tasks.any fun t => t.status == .queued && k.me.kinds.contains t.kind
  if !some_ then pure none
  else
    let leases ← query fun q => q.leased.map k.heldOf
    if k.me.belowMinimum || k.me.asleep then pure none
    else
      let candidates ← query fun q => (k.rows q).map (k.candidateOf q)
      leaseFirst k candidates 0 ((select k.me (k.fleet leases) candidates k.now k.rules).take leaseTries)

/-! ## Requests -/

inductive Request where
  | enqueue (task : Task)
  | claim (k : Claim)
  | replay (worker : WorkerId) (claimId : String) (expires : Int)
  | heartbeat (id : TaskId) (actor : Actor) (expires : Int)
  | complete (id : TaskId) (actor : Actor) (report : Report)
  | fail (id : TaskId) (actor : Actor) (failure : Failure)
  | reconcile (worker : WorkerId) (listed : List (TaskId × Gen)) (at_ : Int)
  | expire (at_ : Int)
  | stop (order : String) (id : TaskId) (worker : WorkerId)
  | suspend (workers : List WorkerId) (order : TaskId → String)
  | endStop (order : String) (id : TaskId) (worker : WorkerId) (listed : List (TaskId × Gen)) (at_ : Int)
  | cancel (scope : CancelScope) (error : Option String) (at_ : Int)
  | retry (id : TaskId) (size largest : Nat) (r : Rules)
  | pin (id : TaskId) (worker : Option WorkerId) (params : Params)
  | host (worker : WorkerId) (may : Bool)

/-- One write, its answer not looked at. -/
def once (w : Write) : Handler Unit := do let _ ← update w

def Request.serve (b : Brain) : Request → Handler Unit
  | .enqueue task => once (.enqueue task)
  | .claim k => do let _ ← selectAndLease k
  | .replay worker claimId expires => once (.replay expires worker claimId)
  | .heartbeat id actor expires => handleHeartbeat b id actor expires
  | .complete id actor report => handleComplete b id actor report
  | .fail id actor failure => handleFail b id actor failure
  | .reconcile worker listed at_ => reconcileHost b worker listed at_
  | .expire at_ => requeueExpiredLeases b at_
  | .stop order id worker => once (.fence order id worker)
  | .suspend workers order => once (.fenceAll workers order)
  | .endStop order id worker listed at_ => Factory.endStop b order id worker listed at_
  | .cancel scope error at_ => once (.cancel scope error at_)
  | .retry id size largest r => handleRetryAtSize id size largest r
  | .pin id worker params => once (.pin id worker params)
  | .host worker may => once (.host worker may)

/-! ## A small fleet -/

/-- The signed constants. -/
def signedRules : Rules where
  buildPerSize := 2
  trial := 2
  audit := 1
  job := 1
  jobReserved := 1
  maxSize := 4
  communityMaxSize := 2
  gbPerSize := 20
  floorGb := 10
  emulatedShare := 1 / 2
  ownerDivisor := 4
  legacyAnyArch := []

/-- A host of a few native lanes, with all kinds of work on. -/
def nativeHost (id : WorkerId) (units : Int) : Member where
  id := id
  legacy := false
  lanes := [⟨.x86_64, .native, none⟩, ⟨.aarch64, .native, none⟩]
  units := units
  agentSlots := 1
  disk := some ⟨500, 500⟩
  kinds := [.build, .sync, .promote, .rollback, .render, .security]
  probeOk := true
  seenAt := 0
  scope := .host

/-- A claim of one host of two. -/
def claimOf (me other : WorkerId) (tag : String) : Claim where
  me := nativeHost me 5
  others := [nativeHost other 5]
  rules := signedRules
  now := 0
  gen := fun n => tag ++ (toString n)

end OmarchyPool.Factory
