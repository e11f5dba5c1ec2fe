/-
# OmarchyPool.WorkerOrders.Closing -- the paths that deliver and close an order

An order is closed at a claim (`takeOrders`), by the cron (`sweepOrders`), by a person's Cancel, by
the worker's own answer, or by the Resume that ends its drain (`Issue.writeResume`).  Each path
reads first and then writes one batch; a close is an UPDATE that asks for the state the path read,
followed by the order's final line, which is written when the row holds what this close wrote
(`Close.sees`).  Here every path is a `Program` of its reads and its batch.

The release a version names and the words of a worker's answer are parameters (`Words`).
-/
import Mathlib.Data.List.Sort
import OmarchyPool.Lib.Program
import OmarchyPool.WorkerOrders.Rules

namespace OmarchyPool.WorkerOrders

set_option autoImplicit false

open Lib

/-! ## A close -/

inductive Final where
  | done
  | refused
  | failed
  | expired
  | cancelled
  deriving DecidableEq

def Final.state : Final → OrderState
  | .done => .done
  | .refused => .refused
  | .failed => .failed
  | .expired => .expired
  | .cancelled => .cancelled

/-- What a final line looks for in the row before it is written, beside the order's state and
time: the pool's words, nothing more, or the worker's answer. -/
inductive Looks where
  | poolWords
  | timeOnly
  | workerAnswer
  deriving DecidableEq

/-- One close of one order: the UPDATE and its final line. -/
structure Close where
  id : String
  worker : String
  kind : OrderKind
  /-- The UPDATE asks for a delivered row; else for a pending one. -/
  fromDelivered : Bool
  /-- The UPDATE asks for the process the order went to (the worker's answer). -/
  takenBy : Option String
  /-- The UPDATE asks for the task the batch gave back, with its error (a stop at a claim). -/
  givenBack : Option (Nat × String)
  final : Final
  code : Option String
  detail : String
  now : Int
  looks : Looks
  deriving DecidableEq

namespace Close

def answerer (c : Close) : Answerer := if c.looks = .workerAnswer then .worker else .pool

def source (c : Close) : OrderState := if c.fromDelivered then .delivered else .pending

/-- The UPDATE's WHERE. -/
def takes (c : Close) (db : Db) (o : OrderRow) : Bool :=
  o.id = c.id && o.state = c.source &&
    (c.takenBy = none || (o.worker = c.worker && o.deliveredTo = c.takenBy)) &&
    c.givenBack.all fun g => (db.tasks g.1).any fun t => t.stopOrder = none && t.error = some g.2

def row (c : Close) (o : OrderRow) : OrderRow :=
  { o with
    state := c.final.state
    answeredAt := some c.now
    answeredBy := some c.answerer
    code := c.code.or o.code
    detail := some c.detail }

/-- The final line's WHERE EXISTS. -/
def sees (c : Close) (o : OrderRow) : Bool :=
  o.id = c.id && o.state = c.final.state && o.answeredAt = some c.now &&
    match c.looks with
    | .poolWords => o.answeredBy = some .pool && o.detail = some c.detail
    | .timeOnly => true
    | .workerAnswer => o.answeredBy = some .worker

def line (c : Close) : Line where
  order := c.id
  state := c.final.state
  status := statusOfState c.final.state
  summary := finalSummary c.worker c.kind c.final.state c.detail c.id

def run (c : Close) (db : Db) : Db :=
  let closed := db.updateOrders fun o => if c.takes db o then c.row o else o
  if closed.orders.any c.sees then closed.log c.line else closed

end Close

/-! ## A batch -/

inductive BatchStep where
  | close (c : Close)
  /-- The fenced task back to the queue, or failed on its last attempt. -/
  | requeue (task : Nat) (owner error order : String)
  /-- Handed out once, to the process that claims. -/
  | deliver (id : String) (now : Int) (process baseline : Option String)
  deriving DecidableEq

/-- `REQUEUE_SQL` at a claim. -/
def TaskRow.requeued (t : TaskRow) (owner error order : String) : TaskRow :=
  if t.status = .leased && t.leaseOwner = some owner && t.stopOrder = some order then
    { t with
      status := if t.maxAttempts ≤ t.attempts then .failed else .queued
      error := some error
      leaseOwner := if t.maxAttempts ≤ t.attempts then t.leaseOwner else none
      stopOrder := none }
  else t

def OrderRow.delivered (o : OrderRow) (now : Int) (process baseline : Option String) : OrderRow :=
  { o with state := .delivered, deliveredAt := some now, deliveredTo := process, baseline := baseline }

namespace BatchStep

def run : BatchStep → Db → Db
  | .close c, db => c.run db
  | .requeue task owner error order, db => db.updateTask task (·.requeued owner error order)
  | .deliver id now process baseline, db =>
      db.updateOrders fun o =>
        if o.id = id && o.state = .pending then o.delivered now process baseline else o

end BatchStep

def runBatch (steps : List BatchStep) (db : Db) : Db := steps.foldl (fun db step => step.run db) db

/-- The closes of a batch, in its order. -/
def closesOf (steps : List BatchStep) : List Close :=
  steps.filterMap fun
    | .close c => some c
    | _ => none

/-! ## Words -/

/-- The texts that come from the release's tags and from the table of answer codes. -/
structure Words where
  versionWord : Option String → String → String
  runsRelease : Option String → Bool
  updateExpired : String
  answerCode : OrderKind → OrderState → Option String → String
  codeSentence : OrderKind → String → Option String → Option String → Option Int → String

def pad2 (n : Nat) : String := if n < 10 then "0" ++ toString n else toString n

/-- The time of day, `HH:MM`. -/
def clock (t : Int) : String :=
  pad2 (t / hour % 24).toNat ++ ":" ++ pad2 (t / minute % 60).toNat

def utc (t : Int) : String := clock t ++ " UTC"

/-- `Math.round(ms / unit)`. -/
def rounded (ms unit : Int) : Int := (2 * ms + unit) / (2 * unit)

def leaseMinutes : Int := 30
def answerWithinMin : Int := 30

def notDelivered : String := "not delivered in time: the worker did not claim"
def drainedUnheard : String :=
  "drained while it was not heard from: it is handed nothing until it is resumed"

/-- A stop whose task is no longer fenced by it. -/
def stopEnded (t : Option (Nat × TaskStatus)) (issuedAt : Int) : Final × String :=
  match t with
  | some (id, .cancelled) =>
      (.done, "task #" ++ toString id ++ " was cancelled meanwhile: nothing left to stop")
  | _ =>
      let then_ :=
        match t with
        | none => ""
        | some (id, .failed) => ". Task #" ++ toString id ++ " failed then: that was its last attempt"
        | some (id, .done) | some (id, .staged) =>
            ". Task #" ++ toString id ++
              " went back to the queue then, and has run to its end since"
        | some (id, _) => ". Task #" ++ toString id ++ " went back to the queue then"
      (.failed, "no claim before its lease ended at " ++ utc (issuedAt + leaseMinutes * minute) ++
        ": its image may not stop on the heartbeat's answer (before #277), or the process is wedged" ++
        " (its watchdog restarts it)" ++ then_)

/-- What a stop's requeue says of the task. -/
def stopError (worker login reason : String) : String :=
  let text := "stopped on " ++ worker ++ " by " ++ login ++
    if reason = "" then "" else ": " ++ reason
  String.ofList (text.toList.take 2000)

def refusedFor (kind : OrderKind) (via : Option AgentVia) : String :=
  match kind with
  | .recheckAgent => "it runs no agent to re-check"
  | .restart =>
      "its container has no restart policy it can count on: a restart would stop it for good"
  | .restartAgent =>
      "it calls no agent service of its own host (its agent is " ++
        (if via = some .broker then "its broker's" else "the provider's, direct") ++ ")"
  | _ => "its process does not take this order"

/-! ## What a claim does with an open order -/

/-- The claim, after its own words. -/
structure AfterClaim where
  worker : String
  /-- The row says it has open orders. -/
  openOrders : Bool
  takes : Option (List OrderKind)
  version : Option String
  agentVia : Option AgentVia
  process : Option String
  processSince : Option Int
  conflict : Bool
  status : Option String
  checkedAt : Option String
  /-- The leases a host's claim lists, `<task>:<gen>`. -/
  listed : List String

inductive ClaimAct where
  | nothing
  | close (final : Final) (detail : String)
  | stop
  | deliver
  deriving DecidableEq

/-- A delivered order, closed by observation when the claim shows the result. -/
def observed (x : AfterClaim) (now : Int) (r : OrderRow) : ClaimAct :=
  let mine := x.process.isSome && x.process = r.deliveredTo
  if x.conflict then .nothing
  else if r.kind = .restart && x.process.isSome && !mine then
    .close .done ("back as a new process (" ++ toString (rounded (now - r.issuedAt) 1000) ++
      " s after the order, on the pool's clock)")
  else if (r.kind = .recheckAgent || r.kind = .restartAgent) && x.process.isSome && !mine then
    .close (if r.kind = .recheckAgent then .expired else .failed) "its process ended before it answered"
  else if mine && r.kind = .recheckAgent && x.checkedAt ≠ r.baseline then
    .close .done ("re-checked: " ++ x.status.getD "no status")
  else if mine && r.kind = .restartAgent && x.checkedAt ≠ r.baseline && x.status = some "ok" then
    .close .done "its agent answers again"
  else .nothing

/-- A pending order of a kind a process takes: stale by what the claim says, or handed out. -/
def handed (x : AfterClaim) (r : OrderRow) : ClaimAct :=
  if r.kind = .restart && x.processSince.any fun since => decide (r.issuedAt < since) then
    .close .done ("restarted since the order (a new process at " ++ clock (x.processSince.getD 0) ++ ")")
  else if r.kind = .recheckAgent && x.checkedAt ≠ r.baselineAtIssue then
    .close .done ("probed since the order: " ++ x.status.getD "no status")
  else if ((r.kind = .restart && r.unlessAgentOk) || r.kind = .restartAgent) && x.status = some "ok" then
    .close .done "its agent answers now; nothing to do"
  else if x.process = none then .nothing
  else .deliver

section Paths

variable (W : Words)

/-- A pending order at a claim. -/
def waiting (x : AfterClaim) (now : Int) (r : OrderRow) : ClaimAct :=
  if r.kind = .drain then
    if r.expiresAt ≤ now then .close .done drainedUnheard
    else if x.conflict then .nothing
    else .close .done "drained: it heard, and is handed nothing until it is resumed"
  else if r.kind = .stopTask then
    if x.conflict then .nothing else .stop
  else if r.expiresAt ≤ now then
    .close .expired (if r.kind = .update then W.updateExpired else notDelivered)
  else if r.kind = .update then
    -- An Update is never delivered: it is done once the worker claims on the pool's release.
    if !x.conflict && W.runsRelease x.version then
      .close .done ("now runs " ++ W.versionWord x.version (x.version.getD "the pool's release"))
    else .nothing
  else if x.conflict then .nothing
  else
    match x.takes with
    | none =>
        .close .refused ("its image (" ++ W.versionWord x.version "its version" ++
          ") takes no orders — its host's updater replaces it")
    | some takes =>
        if takes.contains r.kind then handed x r
        else .close .refused (refusedFor r.kind x.agentVia)

def claimAct (x : AfterClaim) (now : Int) (r : OrderRow) : ClaimAct :=
  if r.state = .delivered then observed x now r else waiting W x now r

/-- A close at a claim: it asks for the state that was read, and looks for its own words. -/
def claimClose (r : OrderRow) (final : Final) (detail : String) (now : Int) : Close where
  id := r.id
  worker := r.worker
  kind := r.kind
  fromDelivered := r.state = .delivered
  takenBy := none
  givenBack := none
  final := final
  code := none
  detail := detail
  now := now
  looks := .poolWords

/-- The task is still fenced by this order, and leased to its worker. -/
def fencedBy (r : OrderRow) (t : TaskRow) : Bool :=
  t.status = .leased && t.leaseOwner = some r.worker && t.stopOrder = some r.id

def leaseName (task : Nat) (t : TaskRow) : String := toString task ++ ":" ++ t.leaseGen.getD "null"

/-- The stop's words when its worker claims again. -/
def stoppedWords (r : OrderRow) (task : Nat) (t : TaskRow) (now : Int) : String :=
  "stopped: it claimed again " ++ toString (max 0 (rounded (now - r.issuedAt) minute)) ++
    " min after the order; task #" ++ toString task ++ " " ++
    if t.maxAttempts ≤ t.attempts then "failed: that was its last attempt" else "is back in the queue"

/-- A stop at a claim, with the task it named as it was read. -/
def claimStop (x : AfterClaim) (now : Int) (r : OrderRow) (t : Option TaskRow) : List BatchStep :=
  match r.taskId, t with
  | some task, some row =>
      if fencedBy r row then
        if x.listed.contains (leaseName task row) then []
        else
          let error := stopError r.worker r.issuedBy r.reason
          [.requeue task r.worker error r.id,
            .close { claimClose r .done (stoppedWords r task row now) now with
              fromDelivered := false, givenBack := some (task, error) }]
      else
        let e := stopEnded (some (task, row.status)) r.issuedAt
        [.close { claimClose r e.1 e.2 now with fromDelivered := false }]
  | _, _ =>
      let e := stopEnded none r.issuedAt
      [.close { claimClose r e.1 e.2 now with fromDelivered := false }]

/-! ## The programs -/

inductive Label where
  | read
  | issue
  | batch (steps : List BatchStep)
  | accept
  | elsewhere
  deriving DecidableEq

abbrev Path (α : Type) : Type := Program Db Label Unit α

def OrderKind.rank : OrderKind → Nat
  | .drain => 0
  | .recheckAgent => 1
  | .restart => 2
  | .restartAgent => 3
  | .resume => 4
  | .stopTask => 5
  | .update => 6

/-- `OPEN_ORDERS_SQL`, by kind. -/
def openOrdersOf (worker : String) (db : Db) : List OrderRow :=
  (db.orders.filter fun o => o.worker = worker && o.state.isOpen).insertionSort
    fun a b => a.kind.rank ≤ b.kind.rank

def deliveryOrder : OrderKind → Nat
  | .drain => 0
  | .recheckAgent => 1
  | .restartAgent => 2
  | .restart => 3
  | _ => 9

/-- `STOPPED_TASK_SQL` for each stop, one after another. -/
def readTasks : List OrderRow → Path (List (OrderRow × Option TaskRow))
  | [] => .pure []
  | r :: rest => do
      let t ← Program.query .read fun db => r.taskId.bind db.tasks
      let others ← readTasks rest
      .pure ((r, t) :: others)

/-- The rows a claim closes, with the state and the words of each. -/
def closesAt (x : AfterClaim) (now : Int) (rows : List OrderRow) : List BatchStep :=
  rows.filterMap fun r =>
    match claimAct W x now r with
    | .close final detail => some (.close (claimClose r final detail now))
    | _ => none

def deliveriesAt (x : AfterClaim) (now : Int) (rows : List OrderRow) : List OrderRow :=
  (rows.filter fun r => claimAct W x now r = .deliver).insertionSort
    fun a b => deliveryOrder a.kind ≤ deliveryOrder b.kind

def deliverStep (x : AfterClaim) (now : Int) (r : OrderRow) : BatchStep :=
  .deliver r.id now x.process (if r.kind = .restart then x.process else x.checkedAt)

/-- The drains a claim hears of, told to a process that understands notices. -/
def noticesAt (x : AfterClaim) (now : Int) (rows : List OrderRow) : List OrderRow :=
  rows.filter fun r => r.kind = .drain && r.state = .pending && now < r.expiresAt && !x.conflict &&
    x.takes.isSome

/-- The claim's delivery: every close, the delivery and one line per order that closed, in one
batch; what is handed out is what was still pending. -/
def takeOrders (x : AfterClaim) (now : Int) : Path (List OrderRow) :=
  if !x.openOrders then .pure []
  else do
    let rows ← Program.query .read (openOrdersOf x.worker)
    let closes := closesAt W x now rows
    let deliver := deliveriesAt W x now rows
    let stops := rows.filter fun r => claimAct W x now r = .stop
    if closes.isEmpty && deliver.isEmpty && stops.isEmpty then .pure []
    else do
      let tasks ← readTasks stops
      let steps := closes ++ tasks.flatMap (fun s => claimStop x now s.1 s.2) ++
        deliver.map (deliverStep x now)
      .stmt (.batch steps) (runBatch steps) fun db =>
        .pure (noticesAt x now rows ++
          deliver.filter fun r => db.orders.any fun o => o.id = r.id && o.state = .pending)

/-- `DUE_ORDERS_SQL`, but for stops. -/
def dueOrders (now : Int) (db : Db) : List OrderRow :=
  db.orders.filter fun o => o.state.isOpen &&
    ((o.state = .pending && o.expiresAt ≤ now) ||
      o.deliveredAt.any fun t => decide (t ≤ now - answerWithinMin * minute)) && o.kind ≠ .stopTask

/-- `STOPS_DUE_SQL`: open stops whose task is no longer fenced by them, with the task's status. -/
def stopsDue (db : Db) : List (OrderRow × Option TaskStatus) :=
  (db.orders.filter fun o => o.state.isOpen && o.kind = .stopTask &&
      !(o.taskId.bind db.tasks).any (fencedBy o)).map fun o =>
    (o, (o.taskId.bind db.tasks).map (·.status))

/-- A close by the sweep, whose line looks for the state and the time alone. -/
def sweepClose (o : OrderRow) (final : Final) (detail : String) (now : Int) : Close :=
  { claimClose o final detail now with looks := .timeOnly }

def sweepStop (now : Int) (s : OrderRow × Option TaskStatus) : BatchStep :=
  let e := stopEnded (s.1.taskId.bind fun task => s.2.map fun status => (task, status)) s.1.issuedAt
  .close (sweepClose s.1 e.1 e.2 now)

def sweepDue (now : Int) (o : OrderRow) : BatchStep :=
  if o.kind = .drain && o.state = .pending then .close (sweepClose o .done drainedUnheard now)
  else if o.state = .pending then
    .close (sweepClose o .expired (if o.kind = .update then W.updateExpired else notDelivered) now)
  else
    .close (sweepClose o (if o.kind = .recheckAgent then .expired else .failed)
      ("no answer within " ++ toString answerWithinMin ++ " min of delivery") now)

/-- The cron's part. -/
def sweepOrders (now : Int) : Path Unit := do
  let due ← Program.query .read (dueOrders now)
  let stops ← Program.query .read stopsDue
  let steps := stops.map (sweepStop now) ++ due.map (sweepDue W now)
  if steps.isEmpty then .pure () else Program.exec (.batch steps) (runBatch steps)

/-- A waiting order taken back, by its worker's owner or a maintainer; `now` is read after the row. -/
def cancelOrder (worker oid login : String) (now : Int) : Path Unit := do
  let found ← Program.query .read fun db =>
    db.orders.find? fun o => o.id = oid && o.worker = worker
  match found with
  | none => .pure ()
  | some o =>
      if o.state ≠ .pending || o.kind = .stopTask || o.kind = .drain then .pure ()
      else
        let steps := [.close (sweepClose o .cancelled ("cancelled by " ++ login) now)]
        Program.exec (.batch steps) (runBatch steps)

/-- What a worker's process answers an order with. -/
structure Answer where
  worker : String
  oid : String
  process : Option String
  /-- `none` accepts the order; else the outcome. -/
  outcome : Option Final
  code : Option String
  version : Option String
  service : Option String
  seconds : Option Int

def acceptedBy (r : Answer) (now : Int) (code detail : String) (db : Db) : Db :=
  db.updateOrders fun o =>
    if o.id = r.oid && o.worker = r.worker && o.deliveredTo = r.process && o.state = .delivered &&
        o.acceptedAt = none then
      { o with acceptedAt := some now, code := some code, detail := some detail }
    else o

/-- The worker's answer: only the process the order went to, an acceptance once, an outcome once. -/
def answerOrder (r : Answer) (now : Int) : Path Unit := do
  let found ← Program.query .read fun db => db.orders.find? (·.id = r.oid)
  match found with
  | none => .pure ()
  | some o =>
      if o.worker ≠ r.worker then .pure ()
      else if o.kind = .drain || o.kind = .resume || o.kind = .update || o.kind = .stopTask then .pure ()
      else if o.state ≠ .delivered then .pure ()
      else if r.process = none || r.process ≠ o.deliveredTo then .pure ()
      else if r.outcome = none && o.acceptedAt.isSome then .pure ()
      else
        let state := (r.outcome.map Final.state).getD .delivered
        let code := W.answerCode o.kind state r.code
        let detail := W.codeSentence o.kind code r.version r.service r.seconds
        match r.outcome with
        | none => Program.exec .accept (acceptedBy r now code detail)
        | some outcome =>
            let steps := [.close { claimClose o outcome detail now with
              takenBy := r.process, code := some code, looks := .workerAnswer }]
            Program.exec (.batch steps) (runBatch steps)

inductive Request where
  | issue (id : String) (a : IssueAsk)
  | claim (x : AfterClaim) (now : Int)
  | sweep (now : Int)
  | cancel (worker oid login : String) (now : Int)
  | answer (r : Answer) (now : Int)
  /-- Whatever the rest of the pool writes to its workers and tasks. -/
  | elsewhere (workers : String → Option WorkerRow) (tasks : Nat → Option TaskRow)

def serve : Request → Path Unit
  | .issue id a => Program.exec .issue fun db => (issueOrder id a db).toOption.getD db
  | .claim x now => do
      let _ ← takeOrders W x now
      .pure ()
  | .sweep now => sweepOrders W now
  | .cancel worker oid login now => cancelOrder worker oid login now
  | .answer r now => answerOrder W r now
  | .elsewhere workers tasks =>
      Program.exec .elsewhere fun db => { db with workers := workers, tasks := tasks }

end Paths

end OmarchyPool.WorkerOrders
