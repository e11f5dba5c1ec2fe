/-
# OmarchyPool.WorkerOrders.Issue -- an order to a worker, issued under every cap

An order (`worker/src/orders.ts`) is one row of `worker_orders`, written by one batch: the INSERT,
which holds every cap and every condition on the state the order acts on, and the statements that
are conditional on the row it wrote.  `insertOrder` is the INSERT with the table's unique indexes,
`afterInsert` the rest of the batch, `issueOrder` both.

Times are milliseconds.  `build_workers` and `build_tasks` are functions of their primary key;
what the orders path does not read of them is left out.
-/
import Mathlib.Data.List.Basic
import Mathlib.Logic.Function.Basic
import Mathlib.Tactic.Common

namespace OmarchyPool.WorkerOrders

set_option autoImplicit false

/-! ## Words and bounds -/

inductive OrderKind where
  | recheckAgent
  | restart
  | restartAgent
  | drain
  | resume
  | update
  | stopTask
  deriving DecidableEq

def OrderKind.name : OrderKind → String
  | .recheckAgent => "recheck-agent"
  | .restart => "restart"
  | .restartAgent => "restart-agent"
  | .drain => "drain"
  | .resume => "resume"
  | .update => "update"
  | .stopTask => "stop-task"

inductive OrderState where
  | pending
  | delivered
  | done
  | refused
  | failed
  | expired
  | cancelled
  deriving DecidableEq

def OrderState.name : OrderState → String
  | .pending => "pending"
  | .delivered => "delivered"
  | .done => "done"
  | .refused => "refused"
  | .failed => "failed"
  | .expired => "expired"
  | .cancelled => "cancelled"

/-- `state IN ('pending', 'delivered')`. -/
def OrderState.isOpen : OrderState → Bool
  | .pending | .delivered => true
  | _ => false

inductive Answerer where
  | worker
  | pool
  deriving DecidableEq

inductive Via where
  | web
  | token
  deriving DecidableEq

def minute : Int := 60000
def hour : Int := 60 * minute
def day : Int := 24 * hour

def maxStopsPerLoginHour : Nat := 30
def maxRestartsPerHour : Nat := 6
def maxRechecksPerHour : Nat := 6
def maxOrdersPerLoginHour : Nat := 20
def maxPoolRestartsPerHour : Nat := 10
def maxPoolOrdersPerDay : Nat := 60
def maxPoolCommunityOrdersPerDay : Nat := 40
def maxPoolCommunityRestartsPerHour : Nat := 6
def ttlPersonMin : Int := 360
def ttlPoolMin : Int := 30
def ttlUpdateMin : Int := 360

def poolProject : String := "pool:project"
def poolCommunity : String := "pool:community"

/-- `issued_by IN ('pool:project', 'pool:community')`. -/
def isPool (login : String) : Bool := login = poolProject || login = poolCommunity

def restartGroup : List OrderKind := [.restart, .restartAgent, .update, .stopTask]

/-- A host's stop is per lease, outside the restart group. -/
def hostRestartGroup : List OrderKind := [.restart, .restartAgent, .update]

/-- `kind IN ('restart', 'restart-agent')`. -/
def OrderKind.restartType : OrderKind → Bool
  | .restart | .restartAgent => true
  | _ => false

/-! ## The tables -/

structure OrderRow where
  id : String
  worker : String
  kind : OrderKind
  reason : String
  issuedBy : String
  via : Option Via
  rule : Option String
  unlessAgentOk : Bool
  taskId : Option Nat
  site : Option String
  issuedAt : Int
  expiresAt : Int
  baselineAtIssue : Option String
  state : OrderState
  deliveredAt : Option Int
  deliveredTo : Option String
  baseline : Option String
  acceptedAt : Option Int
  answeredAt : Option Int
  answeredBy : Option Answerer
  code : Option String
  detail : Option String
  deriving DecidableEq

/-- What the pool issued by its own rules: a re-check (`c`) or a restart-type order (`r`). -/
inductive AutoKind where
  | c
  | r
  deriving DecidableEq

structure AutoMark where
  k : AutoKind
  time : Int
  deriving DecidableEq

/-- The rules' state of a worker, `build_workers.auto_orders`. -/
structure AutoState where
  spell : Option Int
  rechecks : Nat
  restarts : Nat
  lastRecheck : Option Int
  lastRestart : Option Int
  gaveUp : Option Int
  day : List AutoMark
  deriving DecidableEq

structure Drain where
  drainedAt : Int
  drainedBy : String
  drainReason : String
  deriving DecidableEq

/-- A row of `build_workers`; `host` is `kind = 'host'`. -/
structure WorkerRow where
  host : Bool
  autoOrders : Option AutoState
  drained : Option Drain
  deriving DecidableEq

inductive TaskStatus where
  | queued
  | leased
  | staged
  | done
  | failed
  | cancelled
  deriving DecidableEq

/-- A row of `build_tasks`. -/
structure TaskRow where
  status : TaskStatus
  leaseOwner : Option String
  stopOrder : Option String
  error : Option String
  attempts : Nat
  maxAttempts : Nat
  leaseGen : Option String
  deriving DecidableEq

inductive LineStatus where
  | ok
  | warn
  | error
  deriving DecidableEq

/-- A line of the journal about an order, with the state its payload names. -/
structure Line where
  order : String
  state : OrderState
  status : LineStatus
  summary : String
  deriving DecidableEq

structure Db where
  orders : List OrderRow
  workers : String → Option WorkerRow
  tasks : Nat → Option TaskRow
  events : List Line

namespace Db

def updateOrders (db : Db) (f : OrderRow → OrderRow) : Db :=
  { db with orders := db.orders.map f }

def updateWorker (db : Db) (worker : String) (f : WorkerRow → WorkerRow) : Db :=
  { db with workers := Function.update db.workers worker ((db.workers worker).map f) }

def updateTask (db : Db) (task : Nat) (f : TaskRow → TaskRow) : Db :=
  { db with tasks := Function.update db.tasks task ((db.tasks task).map f) }

def log (db : Db) (line : Line) : Db := { db with events := db.events ++ [line] }

/-- `(SELECT kind FROM build_workers WHERE id = ?) = 'host'`. -/
def isHost (db : Db) (worker : String) : Bool := (db.workers worker).any (·.host)

/-- `(SELECT auto_orders FROM build_workers WHERE id = ?)`. -/
def autoOrders (db : Db) (worker : String) : Option AutoState :=
  (db.workers worker).bind (·.autoOrders)

/-- `(SELECT drained_at FROM build_workers WHERE id = ?) IS NOT NULL`. -/
def isDrained (db : Db) (worker : String) : Bool := (db.workers worker).any (·.drained.isSome)

end Db

/-! ## The ask -/

/-- The rules' compare-and-set: the value read, and the value to write with the order. -/
structure AutoWrite where
  old : Option AutoState
  next : AutoState

structure DeliverTo where
  process : String
  baseline : Option String

/-- The pool's words for a resume's own close, and for the drain it ends. -/
structure Resumed where
  detail : String
  drain : String

structure IssueAsk where
  worker : String
  kind : OrderKind
  reason : String
  login : String
  via : Option Via
  rule : Option String
  unlessAgentOk : Bool
  site : Option String
  baselineAtIssue : Option String
  auto : Option AutoWrite
  deliverTo : Option DeliverTo
  task : Option Nat
  host : Bool
  resumed : Option Resumed
  now : Int
  lineStatus : LineStatus
  lineSummary : String

/-- The kinds that share an order's cap on its worker. -/
def groupOf (host : Bool) (kind : OrderKind) : List OrderKind :=
  if host && kind = .stopTask then []
  else if restartGroup.contains kind then (if host then hostRestartGroup else restartGroup)
  else [kind]

def capOf (kind : OrderKind) : Nat :=
  if kind = .recheckAgent then maxRechecksPerHour else maxRestartsPerHour

def ttlOf (a : IssueAsk) : Int :=
  if a.kind = .update then ttlUpdateMin else if isPool a.login then ttlPoolMin else ttlPersonMin

def taskOf (a : IssueAsk) : Option Nat := if a.kind = .stopTask then a.task else none

def newOrder (id : String) (a : IssueAsk) : OrderRow where
  id := id
  worker := a.worker
  kind := a.kind
  reason := a.reason
  issuedBy := a.login
  via := a.via
  rule := a.rule
  unlessAgentOk := a.unlessAgentOk
  taskId := taskOf a
  site := a.site
  issuedAt := a.now
  expiresAt := a.now + ttlOf a * minute
  baselineAtIssue := a.baselineAtIssue
  state := if a.deliverTo.isSome then .delivered else .pending
  deliveredAt := a.deliverTo.map fun _ => a.now
  deliveredTo := a.deliverTo.map (·.process)
  baseline := a.deliverTo.bind (·.baseline)
  acceptedAt := none
  answeredAt := none
  answeredBy := none
  code := none
  detail := none

/-! ## The INSERT's conditions -/

/-- `SELECT COUNT(*) FROM worker_orders WHERE … AND issued_at > since`. -/
def Db.countSince (db : Db) (since : Int) (counted : OrderRow → Bool) : Nat :=
  db.orders.countP fun o => counted o && decide (since < o.issuedAt)

def underWorkerCap (a : IssueAsk) (db : Db) : Bool :=
  a.kind = .resume ||
    db.countSince (a.now - hour)
      (fun o => o.worker = a.worker && (groupOf a.host a.kind).contains o.kind) < capOf a.kind

/-- A host's stop is checked against the login's stops alone, and still counts in its orders. -/
def underLoginCap (a : IssueAsk) (db : Db) : Bool :=
  isPool a.login || a.kind = .resume ||
    if a.kind = .stopTask && db.isHost a.worker then
      db.countSince (a.now - hour) (fun o => o.issuedBy = a.login && o.kind = .stopTask)
        < maxStopsPerLoginHour
    else
      db.countSince (a.now - hour) (fun o => o.issuedBy = a.login && o.kind ≠ .resume)
        < maxOrdersPerLoginHour

def underPoolCaps (a : IssueAsk) (db : Db) : Bool :=
  (!isPool a.login || !a.kind.restartType ||
    db.countSince (a.now - hour) (fun o => isPool o.issuedBy && o.kind.restartType)
      < maxPoolRestartsPerHour) &&
  (a.login ≠ poolCommunity || !a.kind.restartType ||
    db.countSince (a.now - hour) (fun o => o.issuedBy = poolCommunity && o.kind.restartType)
      < maxPoolCommunityRestartsPerHour) &&
  (!isPool a.login ||
    db.countSince (a.now - day) (fun o => isPool o.issuedBy) < maxPoolOrdersPerDay) &&
  (a.login ≠ poolCommunity ||
    db.countSince (a.now - day) (fun o => o.issuedBy = poolCommunity)
      < maxPoolCommunityOrdersPerDay)

/-- The task is leased to the worker and not stopped yet. -/
def TaskRow.heldBy (t : TaskRow) (worker : String) : Bool :=
  t.status = .leased && t.leaseOwner = some worker && t.stopOrder = none

/-- The rules' compare-and-set, and the state the pool's own kinds act on. -/
def stateAllows (a : IssueAsk) (db : Db) : Bool :=
  (a.rule = none || db.autoOrders a.worker = a.auto.bind (·.old)) &&
  (a.kind ≠ .drain || !db.isDrained a.worker) &&
  (a.kind ≠ .resume || db.isDrained a.worker) &&
  (a.kind ≠ .stopTask || ((taskOf a).bind db.tasks).any (·.heldBy a.worker))

def issueGuard (a : IssueAsk) (db : Db) : Bool :=
  underWorkerCap a db && underLoginCap a db && underPoolCaps a db && stateAllows a db

/-- Why an order was not issued; `id` is the primary key's refusal, which the caller throws on. -/
inductive Refused where
  | cap
  | id
  | alreadyOpen
  | site
  deriving DecidableEq

/-- `uq_worker_orders_open_kind`. -/
def sameOpenKind (new o : OrderRow) : Bool :=
  o.state.isOpen && o.worker = new.worker && o.kind = new.kind &&
    o.taskId.getD 0 = new.taskId.getD 0

/-- `uq_worker_orders_open_site_agent`. -/
def sameOpenSite (new o : OrderRow) : Bool :=
  o.state.isOpen && o.kind = .restartAgent && new.kind = .restartAgent && new.site.isSome &&
    o.site = new.site

def insertOrder (id : String) (a : IssueAsk) (db : Db) : Except Refused Db :=
  let new := newOrder id a
  if issueGuard a db then
    if db.orders.any (·.id = id) then .error .id
    else if db.orders.any (sameOpenKind new) then .error .alreadyOpen
    else if db.orders.any (sameOpenSite new) then .error .site
    else .ok { db with orders := db.orders ++ [new] }
  else .error .cap

/-! ## The rest of the batch -/

/-- `UPDATE build_workers SET auto_orders = ? WHERE id = ? AND auto_orders IS ?`. -/
def Db.setAuto (db : Db) (worker : String) (w : AutoWrite) : Db :=
  db.updateWorker worker fun r =>
    if r.autoOrders = w.old then { r with autoOrders := some w.next } else r

def writeAuto (a : IssueAsk) (db : Db) : Db :=
  match a.auto with
  | none => db
  | some w => db.setAuto a.worker w

/-- A drain holds at once. -/
def writeDrain (a : IssueAsk) (db : Db) : Db :=
  if a.kind = .drain then
    db.updateWorker a.worker fun r =>
      if r.drained = none then { r with drained := some ⟨a.now, a.login, a.reason⟩ } else r
  else db

/-- A stop fences the lease: the task stays leased to its worker, and names the order. -/
def writeFence (id : String) (a : IssueAsk) (db : Db) : Db :=
  match taskOf a with
  | none => db
  | some task => db.updateTask task fun t =>
      if t.heldBy a.worker then { t with stopOrder := some id } else t

/-- `STATUS_OF_STATE`. -/
def statusOfState : OrderState → LineStatus
  | .expired => .warn
  | .failed => .error
  | _ => .ok

/-- The words of an order's final line. -/
def finalSummary (worker : String) (kind : OrderKind) (state : OrderState) (detail id : String) :
    String :=
  worker ++ ": " ++ kind.name ++ " " ++ state.name ++ " — " ++ detail ++ " (order " ++ id ++ ")"

/-- An order's final line, as every path that closes one writes it. -/
def finalLineOf (o : OrderRow) (state : OrderState) (detail : String) : Line where
  order := o.id
  state := state
  status := statusOfState state
  summary := finalSummary o.worker o.kind state detail o.id

/-- The row as the pool closes it. -/
def OrderRow.closedBy (o : OrderRow) (state : OrderState) (answerer : Answerer) (now : Int)
    (detail : String) : OrderRow :=
  { o with state := state, answeredAt := some now, answeredBy := some answerer, detail := some detail }

/-- The worker's drain that still waits for a claim. -/
def waitingDrain (worker : String) (o : OrderRow) : Bool :=
  o.worker = worker && o.kind = .drain && o.state.isOpen && o.state = .pending

/-- A resume ends the drain: the drain order's final line while it is open, then its close, the
worker's row, and the resume itself, which is done at issue. -/
def writeResume (id : String) (a : IssueAsk) (r : Resumed) (db : Db) : Db :=
  let lines := (db.orders.filter (waitingDrain a.worker)).map fun o => finalLineOf o .done r.drain
  let db := { db with events := db.events ++ lines }
  let db := db.updateOrders fun o =>
    if waitingDrain a.worker o then o.closedBy .done .pool a.now r.drain else o
  let db := db.updateWorker a.worker fun row => { row with drained := none }
  db.updateOrders fun o =>
    if o.id = id && o.state = .pending then o.closedBy .done .pool a.now r.detail else o

def resumedOf (a : IssueAsk) : Option Resumed := if a.kind = .resume then a.resumed else none

def issueLine (id : String) (a : IssueAsk) : Line where
  order := id
  state := if a.deliverTo.isSome then .delivered else .pending
  status := a.lineStatus
  summary := a.lineSummary

/-- The order's issue line, and a resume's own final line. -/
def writeLines (id : String) (a : IssueAsk) (db : Db) : Db :=
  let db := db.log (issueLine id a)
  match resumedOf a with
  | none => db
  | some r =>
      if db.orders.any fun o => o.id = id && o.state = .done && o.answeredAt = some a.now then
        db.log ⟨id, .done, .ok, finalSummary a.worker .resume .done r.detail id⟩
      else db

/-- The statements after the INSERT; each is conditional on the row it wrote. -/
def afterInsert (id : String) (a : IssueAsk) (db : Db) : Db :=
  let db := writeFence id a (writeDrain a (writeAuto a db))
  writeLines id a <|
    match resumedOf a with
    | none => db
    | some r => writeResume id a r db

/-- One order, issued atomically with its line: nothing is written unless the INSERT is. -/
def issueOrder (id : String) (a : IssueAsk) (db : Db) : Except Refused Db :=
  (insertOrder id a db).map (afterInsert id a)

/-! ## When an order is issued -/

theorem issueOrder_ok {id : String} {a : IssueAsk} {db db' : Db}
    (ok : issueOrder id a db = .ok db') :
    issueGuard a db = true ∧ (∀ o ∈ db.orders, o.id ≠ id) ∧
      db' = afterInsert id a { db with orders := db.orders ++ [newOrder id a] } := by
  unfold issueOrder insertOrder at ok
  by_cases guarded : issueGuard a db = true
  · by_cases taken : db.orders.any (·.id = id) = true
    · simp only [guarded, taken, if_true] at ok
      cases ok
    · refine ⟨guarded, by simpa using taken, ?_⟩
      simp only [guarded, taken, if_true, Bool.false_eq_true, if_false] at ok
      split at ok
      · cases ok
      · split at ok
        · cases ok
        · exact (Except.ok.inj ok).symm
  · simp only [guarded, Bool.false_eq_true, if_false] at ok
    cases ok

theorem issueOrder_eq_ok {id : String} {a : IssueAsk} {db : Db} (guarded : issueGuard a db = true)
    (fresh : db.orders.any (·.id = id) = false)
    (noneOpen : db.orders.any (sameOpenKind (newOrder id a)) = false)
    (noneAtSite : db.orders.any (sameOpenSite (newOrder id a)) = false) :
    issueOrder id a db =
      .ok (afterInsert id a { db with orders := db.orders ++ [newOrder id a] }) := by
  simp only [issueOrder, insertOrder, guarded, fresh, noneOpen, noneAtSite, if_true,
    Bool.false_eq_true, if_false]
  rfl

/-! ## The rules' state through an issue -/

/-- The worker's `auto_orders`, if the worker has a row. -/
def Db.autoRow (db : Db) (worker : String) : Option (Option AutoState) :=
  (db.workers worker).map (·.autoOrders)

theorem autoRow_updateWorker {db : Db} {worker other : String} {f : WorkerRow → WorkerRow}
    (same : ∀ r, (f r).autoOrders = r.autoOrders) :
    (db.updateWorker other f).autoRow worker = db.autoRow worker := by
  unfold Db.autoRow Db.updateWorker
  by_cases is : worker = other
  · subst is
    simp only [Function.update_self, Option.map_map]
    exact congrArg (fun g => (db.workers worker).map g) (funext same)
  · simp [Function.update_of_ne is]

theorem autoRow_setAuto {db : Db} {worker : String} {w : AutoWrite}
    (held : db.autoRow worker = some w.old) :
    (db.setAuto worker w).autoRow worker = some (some w.next) := by
  unfold Db.autoRow at held
  obtain ⟨row, rowIs, auto⟩ := Option.map_eq_some_iff.mp held
  simp [Db.autoRow, Db.setAuto, Db.updateWorker, rowIs, auto]

theorem autoRow_writeDrain (a : IssueAsk) (db : Db) (worker : String) :
    (writeDrain a db).autoRow worker = db.autoRow worker := by
  unfold writeDrain
  split
  · apply autoRow_updateWorker
    intro r
    split <;> rfl
  · rfl

theorem autoRow_writeFence (id : String) (a : IssueAsk) (db : Db) (worker : String) :
    (writeFence id a db).autoRow worker = db.autoRow worker := by
  unfold writeFence
  split <;> rfl

theorem autoRow_writeResume (id : String) (a : IssueAsk) (r : Resumed) (db : Db) (worker : String) :
    (writeResume id a r db).autoRow worker = db.autoRow worker :=
  @autoRow_updateWorker db worker a.worker _ fun _ => rfl

theorem autoRow_writeLines (id : String) (a : IssueAsk) (db : Db) (worker : String) :
    (writeLines id a db).autoRow worker = db.autoRow worker := by
  unfold writeLines
  dsimp only
  split
  · rfl
  · split <;> rfl

theorem autoRow_afterInsert (id : String) (a : IssueAsk) (db : Db) (worker : String) :
    (afterInsert id a db).autoRow worker = (writeAuto a db).autoRow worker := by
  unfold afterInsert
  dsimp only
  rw [autoRow_writeLines]
  split
  · rw [autoRow_writeFence, autoRow_writeDrain]
  · rw [autoRow_writeResume, autoRow_writeFence, autoRow_writeDrain]

/-- An order of the rules goes in only while the row holds what its claim read, and leaves the
value its claim decided on. -/
theorem issueOrder_auto {id : String} {a : IssueAsk} {db db' : Db} {w : AutoWrite} {rule : String}
    {old : Option AutoState} (row : db.autoRow a.worker = some old) (byRule : a.rule = some rule)
    (auto : a.auto = some w) (ok : issueOrder id a db = .ok db') :
    old = w.old ∧ db'.autoRow a.worker = some (some w.next) := by
  obtain ⟨guarded, _, rfl⟩ := issueOrder_ok ok
  have held : db.autoOrders a.worker = old := by
    obtain ⟨r, rowIs, autoIs⟩ := Option.map_eq_some_iff.mp row
    simp [Db.autoOrders, rowIs, autoIs]
  have same : old = w.old := by
    simp only [issueGuard, stateAllows, Bool.and_eq_true, byRule, auto, reduceCtorEq, decide_false,
      Bool.false_or, decide_eq_true_eq, held, Option.bind_some] at guarded
    exact guarded.2.1.1.1
  refine ⟨same, ?_⟩
  rw [autoRow_afterInsert, writeAuto, auto]
  apply autoRow_setAuto
  rw [← same]
  exact row

end OmarchyPool.WorkerOrders
