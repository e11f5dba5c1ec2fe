/-
# OmarchyPool.Factory.LeaseEnds -- a host's lease ends once

Reads and writes of claims, reports, reconciliations, stops, cancels and retries interleave,
and the lease of a generation still has one life: it is the row's current lease until one
write ends it (`lease_ends_once`), and from its end or its fence on a report with its token
leaves the row as it is, whatever the report had read before.

A report writes its own row under `LEASE_HELD`, with the generation of its token.  What a
completion writes after that is on other rows: older builds, audits and trials of them, a
build it published.  That they are other rows rests on what no write undoes (`Flow`): a row
keeps its kind, and a finished one stays finished.
-/
import OmarchyPool.Factory.History

namespace OmarchyPool.Factory

open Lib

set_option autoImplicit false

/-! ## Reports with the token of one lease -/

/-- The task and the generation a job's token names. -/
def Actor.token : Actor → Option (TaskId × Gen)
  | .job task _ (some gen) => some (task, gen)
  | _ => none

def Request.token : Request → Option (TaskId × Gen)
  | .heartbeat _ actor _ | .complete _ actor _ | .fail _ actor _ => actor.token
  | _ => none

/-- The row of a spent lease stays as it is. -/
def Untouched (id : TaskId) (gen : Gen) (s s' : Ledger) : Prop :=
  Spent s.history id gen → ∀ t ∈ s.queue.tasks, t.id = id → t ∈ s'.queue.tasks

def Honest (request : Request) (s s' : Ledger) : Prop :=
  Flow s s' ∧ ∀ id gen, request.token = some (id, gen) → Untouched id gen s s'

def leaseContract : Contract Ledger Event where
  inv := Accounted
  rely := Flow
  guar := Flow
  meets := Fresh

theorem Honest.refl (request : Request) (s : Ledger) : Honest request s s :=
  ⟨.refl s, fun _ _ _ _ _ member _ => member⟩

theorem honest_quiet (request : Request) (t : Ledger) (_ : (leaseContract.by Honest request).inv t) :
    (leaseContract.by Honest request).guar t t := .refl request t

theorem untouched_of_guard {s : Ledger} {w : Write} {id : TaskId} {gen : Gen} (accounted : Accounted s)
    (misses : ∀ t ∈ s.queue.tasks, t.id = id → (∀ worker, t.heldAs worker (some gen) = false) →
      w.guard s.queue t = false) : Untouched id gen s (s.exec w) := by
  intro spent t member isRow
  have missed := misses t member isRow (accounted.spent id gen spent t member isRow)
  have same : s.queue.after w t = t := Queue.after_of_not_guard (by rw [missed]; exact Bool.false_ne_true)
  exact same ▸ Queue.after_mem_exec member

/-- A request without a token of one lease may write what it likes. -/
theorem honest_of_no_token {request : Request} (noToken : request.token = none) {p : Handler Unit}
    (only : p.Only Writes) {s : Ledger} (accounted : Accounted s) :
    p.Spec (leaseContract.by Honest request) s fun _ _ => True := by
  refine (Program.Only.spec (c := leaseContract.by Honest request) Flow (fun _ _ _ => .trans) .refl
    (fun _ _ relied => relied) (fun _ _ guar => guar.1) ?_ only accounted).mono fun _ _ _ => trivial
  intro label write allowed t accountedT fresh
  cases allowed with
  | read => exact ⟨accountedT, .refl request t⟩
  | write w => exact ⟨accountedT.exec fresh, .exec t w, fun id gen has => by rw [noToken] at has; cases has⟩

section Report

variable {request : Request} {actor : Actor} {s : Ledger}

/-- A write under `LEASE_HELD` is no use to a token whose lease is spent. -/
theorem honest_held {w : Write} (names : ∀ task gen, request.token = some (task, gen) → actor.gen = some gen)
    (guarded : ∀ q t, w.guard q t = true → t.heldAs actor.name actor.gen = true) (accounted : Accounted s) :
    Honest request s (s.exec w) := by
  refine ⟨.exec s w, fun task gen has => untouched_of_guard accounted fun t _ _ dead => ?_⟩
  rw [Bool.eq_false_iff]
  intro matched
  have held := guarded _ t matched
  rw [names task gen has, dead] at held
  cases held

end Report

/-- Statements that pass the row `id` by, as far as `is` is known of the row. -/
inductive Beside (id : TaskId) (is : Task → Prop) : Event → (Ledger → Ledger) → Prop where
  | read : Beside id is .read fun s => s
  | write (w : Write) (misses : ∀ q t, t.id = id → is t → w.guard q t = false) :
      Beside id is (.write w) (Ledger.exec w)

theorem beside_spec {request : Request} {α : Type} {id : TaskId} {is : Task → Prop}
    (stable : ∀ t t' : Task, t.SameRow t' → (t.isOver = true → t'.isOver = true) → is t → is t')
    (names : ∀ task gen, request.token = some (task, gen) → task = id) {p : Handler α}
    (only : p.Only (Beside id is)) {s : Ledger} (known : ∃ t ∈ s.queue.tasks, t.id = id ∧ is t) :
    p.Spec (leaseContract.by Honest request) s fun _ _ => True := by
  refine (Program.Only.spec_knowing (c := leaseContract.by Honest request)
    (fun s => ∃ t ∈ s.queue.tasks, t.id = id ∧ is t) ?_ (fun _ _ guar => guar.1) ?_ only known).mono
      fun _ _ _ => trivial
  · rintro s s' flow ⟨t, member, isRow, holds⟩
    obtain ⟨t', member', same, isOver⟩ := flow t member
    exact ⟨t', member', same.id.trans isRow, stable t t' same isOver holds⟩
  · rintro label write allowed s' accounted ⟨row, inTasks, rowId, holds⟩ fresh
    cases allowed with
    | read => exact ⟨accounted, .refl request s'⟩
    | write w misses =>
        refine ⟨accounted.exec fresh, .exec s' w, fun task gen has => untouched_of_guard accounted ?_⟩
        intro t member isRow _
        have sameId : row.id = t.id := rowId.trans (isRow.trans (names task gen has)).symm
        obtain rfl := accounted.numbered.unique inTasks member sameId
        exact misses _ row rowId holds

theorem supersede_beside (id : TaskId) (error : String) {older : List Task} (others : ∀ o ∈ older, o.id ≠ id) :
    (supersede error older).Only (Beside id (·.kind = .build)) := by
  induction older with
  | nil => trivial
  | cons o rest ih =>
      have queuedFor : ∀ kind error at_, kind ≠ .build →
          Beside id (·.kind = .build) (.write (.cancel (.queuedFor kind o.id) error at_))
            (Ledger.exec (.cancel (.queuedFor kind o.id) error at_)) := by
        intro kind error at_ notBuild
        refine .write _ fun q t _ build => ?_
        simp [Write.guard, CancelScope.covers, build, notBuild.symm]
      refine (only_update (.write _ fun q t isRow _ => ?_)).bind fun _ =>
        (only_update (queuedFor _ _ _ (by decide))).bind fun _ =>
          (only_update (queuedFor _ _ _ (by decide))).bind fun _ => ih fun p member => others p (by simp [member])
      have other := others o (by simp)
      simp [Write.guard, CancelScope.covers, isRow, other.symm]

theorem enqueue_beside (id : TaskId) (is : Task → Prop) (task : Task) :
    Beside id is (.write (.enqueue task)) (Ledger.exec (.enqueue task)) := .write _ fun _ _ _ _ => rfl

theorem afterJob_beside (id : TaskId) (task : Task) (report : Report) :
    (afterJob task report).Only (Beside id (·.isOver = true)) := by
  unfold afterJob
  split
  · refine (only_query Beside.read _).bind fun idle => ?_
    split
    · exact (only_update (enqueue_beside id _ _)).bind fun _ => trivial
    · trivial
  · split
    · refine (only_update (.write _ fun q t _ isOver => ?_)).bind fun _ => trivial
      have status : t.status = .done ∨ t.status = .cancelled := by simpa [Task.isOver] using isOver
      rcases status with done | cancelled <;> simp [Write.guard, *]
    · trivial
  · trivial

/-! ## Each report -/

section Reports

variable {b : Brain} {id : TaskId} {actor : Actor} {request : Request} {s : Ledger}
  (isToken : request.token = actor.token)
include isToken

theorem token_gen {task : TaskId} {gen : Gen} (has : request.token = some (task, gen)) : actor.gen = some gen := by
  rw [isToken] at has
  unfold Actor.token at has
  split at has
  · cases has
    rfl
  · cases has

theorem token_task (may : actor.mayAct id = true) {task : TaskId} {gen : Gen}
    (has : request.token = some (task, gen)) : task = id := by
  rw [isToken] at has
  unfold Actor.token at has
  split at has
  · cases has
    simpa [Actor.mayAct] using may
  · cases has

theorem heartbeat_spec (expires : Int) :
    (handleHeartbeat b id actor expires).Spec (leaseContract.by Honest request) s fun _ _ => True := by
  refine owned_spec (honest_quiet request) (fun _ _ => trivial) fun s' task _ _ _ _ _ sameGen _ => ?_
  split
  · trivial
  refine reportBy_spec (honest_quiet request) (fun _ _ => trivial) (fun _ _ accounted fresh => ?_)
    fun _ _ _ _ => trivial
  refine ⟨accounted.exec fresh, ?_⟩
  refine @honest_held _ actor _ _ (fun _ _ => token_gen isToken) (fun q t matched => ?_) accounted
  simp only [Write.guard, Bool.and_eq_true, sameGen] at matched
  exact matched.2

theorem fail_spec (f : Failure) :
    (handleFail b id actor f).Spec (leaseContract.by Honest request) s fun _ _ => True := by
  refine owned_spec (honest_quiet request) (fun _ _ => trivial) fun s' task _ _ _ _ _ sameGen _ => ?_
  split <;>
  · refine reportBy_spec (honest_quiet request) (fun _ _ => trivial) (fun _ _ accounted fresh => ?_)
      fun _ _ _ _ => trivial
    refine ⟨accounted.exec fresh, ?_⟩
    refine @honest_held _ actor _ _ (fun _ _ => token_gen isToken) (fun q t matched => ?_) accounted
    simp only [Write.guard, Failure.write, Bool.and_eq_true, sameGen] at matched
    exact matched.2

theorem complete_spec (report : Report) :
    (handleComplete b id actor report).Spec (leaseContract.by Honest request) s fun _ _ => True := by
  refine owned_spec (honest_quiet request) (fun _ _ => trivial)
    fun s' task _ accounted inTasks isRow _ sameGen may => ?_
  have honest : ∀ completion at_ (s' : Ledger), Accounted s' →
      Fresh (.write (.complete id actor.name task.leaseGen completion at_)) s' →
        Accounted (s'.exec (.complete id actor.name task.leaseGen completion at_)) ∧
          Honest request s' (s'.exec (.complete id actor.name task.leaseGen completion at_)) := by
    intro completion at_ s' accounted fresh
    refine ⟨accounted.exec fresh, ?_⟩
    refine @honest_held _ actor _ _ (fun _ _ => token_gen isToken) (fun q t matched => ?_) accounted
    simp only [Write.guard, Bool.and_eq_true, sameGen] at matched
    exact matched.2
  split
  · trivial
  split
  · -- a pool job: its row is done before it looks at another
    refine Program.Spec.bind (reportBy_spec (honest_quiet request) (fun _ _ => trivial)
      (fun s' _ accounted fresh => honest _ _ s' accounted fresh) ?_)
    intro s' _ accounted changed
    refine beside_spec (fun _ _ _ isOver => isOver) (fun _ _ => token_task isToken may)
      (afterJob_beside id task report) ?_
    obtain ⟨t, member, matched⟩ := List.any_eq_true.mp changed
    refine ⟨_, Queue.after_mem_exec member, ?_, ?_⟩
    · rw [(s'.queue.after_sameRow _ t).id]
      simp only [Write.guard, Bool.and_eq_true, beq_iff_eq] at matched
      exact matched.1
    · rw [Queue.after_of_guard matched]
      rfl
  rename_i isBuild
  split
  · trivial
  split
  · split
    · trivial
    refine Program.Spec.bind (reportBy_spec (honest_quiet request) (fun _ _ => trivial)
      (fun s' _ accounted fresh => honest _ _ s' accounted fresh) ?_)
    intro s' flow _ _ s'' flow' accounted' _
    refine ⟨accounted', .refl request s'', ?_⟩
    refine @beside_spec _ _ _ (·.kind = .build) (fun _ _ same _ build => same.kind.trans build)
      (fun _ _ => token_task isToken may) _ ?_ _ ?_
    · refine (supersede_beside id _ fun o older => ?_).bind fun _ =>
        (only_update (enqueue_beside id _ _)).bind fun _ => ?_
      · have below := (List.mem_filter.mp older).2
        simp only [Bool.and_eq_true, decide_eq_true_eq] at below
        exact Nat.ne_of_lt below.2
      · split
        · exact (only_update (enqueue_beside id _ _)).bind fun _ => trivial
        · trivial
    · obtain ⟨t, member, same, -⟩ := (flow.trans ((Flow.exec s' _).trans flow')) task inTasks
      exact ⟨t, member, same.id.trans isRow, same.kind.trans (not_not.mp isBuild)⟩
  split
  · trivial
  · exact reportBy_spec (honest_quiet request) (fun _ _ => trivial)
      (fun s' _ accounted fresh => honest _ _ s' accounted fresh) fun _ _ _ _ => trivial

end Reports

theorem serve_honest (b : Brain) (request : Request) {s : Ledger} (accounted : Accounted s) :
    (request.serve b).Spec (leaseContract.by Honest request) s fun _ _ => True := by
  cases request with
  | heartbeat id actor expires => exact heartbeat_spec rfl expires
  | complete id actor report => exact complete_spec rfl report
  | fail id actor failure => exact fail_spec rfl failure
  | _ => exact honest_of_no_token rfl (serve_only b _) accounted

/-! ## Every interleaving -/

/-- Taken, and not ended. -/
def Open (history : List LeaseEvent) (id : TaskId) (worker : Option WorkerId) (gen : Gen) : Prop :=
  .leased id worker (some gen) ∈ history ∧ ∀ path, .ended id (some gen) path ∉ history

/-- What holds of the leases of hosts in a configuration. -/
structure OneLife (config : Config Ledger Request Event Refusal Unit) : Prop where
  /-- A row is one row, and its current lease is the one that was taken and has not ended. -/
  rows : (config.store.queue.tasks.map (·.id)).Nodup
  current : ∀ t ∈ config.store.queue.tasks, ∀ worker gen,
    Open config.store.history t.id worker gen ↔ t.lease? = some (some gen) ∧ t.leaseOwner = worker
  /-- A report whose token names a lease that ended or was fenced leaves the token's row as it is, at
  each of its statements, wherever it stands. -/
  stale : ∀ thread request p id gen, config.threads[thread]? = some (request, p) →
    request.token = some (id, gen) → Spent config.store.history id gen →
    config.Allows Fresh (.run thread) → ∀ t ∈ config.store.queue.tasks, t.id = id →
      t ∈ (config.advance thread).store.queue.tasks
  /-- A lease that was taken is its row's and has not ended, or has ended once, by one path, and is no
  row's. -/
  ends : ∀ id worker gen, .leased id worker (some gen) ∈ config.store.history →
    (config.store.history.countP (·.ends gen) = 0 ∧
      ∃ t ∈ config.store.queue.tasks, t.id = id ∧ t.lease? = some (some gen) ∧ t.leaseOwner = worker) ∨
    (config.store.history.countP (·.ends gen) = 1 ∧
      (∃ path, path ≠ .other ∧ .ended id (some gen) path ∈ config.store.history) ∧
      ∀ t ∈ config.store.queue.tasks, t.lease? ≠ some (some gen))

theorem Accounted.current {s : Ledger} (accounted : Accounted s) {t : Task} (member : t ∈ s.queue.tasks)
    (worker : Option WorkerId) (gen : Gen) :
    Open s.history t.id worker gen ↔ t.lease? = some (some gen) ∧ t.leaseOwner = worker := by
  constructor
  · rintro ⟨leased, notEnded⟩
    rcases accounted.held t.id worker gen leased with ⟨path, ended⟩ | ⟨row, inTasks, sameId, holds, owner⟩
    · exact absurd ended (notEnded path)
    · obtain rfl := accounted.numbered.unique inTasks member sameId
      exact ⟨holds, owner⟩
  · rintro ⟨holds, rfl⟩
    have leased := accounted.taken t member gen holds
    refine ⟨leased, fun path ended => ?_⟩
    rcases accounted.held_or_ended leased with ⟨none, -⟩ | ⟨-, -, noRow⟩
    · have := List.countP_eq_zero.mp none _ ended
      simp [LeaseEvent.ends] at this
    · exact noRow t member holds

/-- In every interleaving of the factory's requests whose host leases have generations of their own,
a lease has one life. -/
theorem lease_ends_once (b : Brain) (mayLease : WorkerId → Bool)
    {config : Config Ledger Request Event Refusal Unit}
    (reached : Reachable (Request.serve b) Fresh (.empty mayLease) config) : OneLife config := by
  obtain ⟨accounted, flying⟩ := reachable_each leaseContract Honest (fun _ _ _ => True) Flow.refl
    (fun _ _ _ => Flow.trans) (fun _ _ _ honest => honest.1) (.empty mayLease)
    (fun request _ accounted => serve_honest b request accounted) reached
  refine ⟨accounted.numbered.nodup, fun t member => accounted.current member, ?_,
    fun id worker gen => accounted.held_or_ended⟩
  intro thread request p id gen found has spent allowed t member isRow
  rcases advance_guar accounted (flying _ (List.mem_of_getElem? found)) found allowed with same | honest
  · rw [same]
    exact member
  · exact honest.2 id gen has spent t member isRow

/-- A build leased to a host; its completion has read the row when a stop fences the lease and the
next claim of the host requeues it; the host leases it again. -/
def lateReport : List (Move Request) :=
  [.spawn (.enqueue { jobTask .build "p" .x86_64 {} with publish := false }), .run 0,
   .spawn (.claim (claimOf "a" "b" "ga")), .run 1, .run 1, .run 1, .run 1,
   .spawn (.complete 1 (.job 1 "a" (some "ga0")) { outcome := { sha256 := some "s", filename := some "f" } }), .run 2,
   .spawn (.stop "o" 1 "a"), .run 3,
   .spawn (.endStop "o" 1 "a" [] 5), .run 4, .run 4,
   .spawn (.claim (claimOf "a" "b" "gb")), .run 5, .run 5, .run 5, .run 5]

/-- The completion is still to write: it finds a row leased anew, and leaves it so. -/
theorem oneLife_of_lateReport :
    ∃ config, Reachable (Request.serve {}) Fresh (.empty fun _ => true) config ∧ OneLife config ∧
      Spent config.store.history 1 "ga0" ∧
      (config.store.queue.tasks.map fun t => (t.id, t.lease?)) = [(1, some (some "gb0"))] :=
  have reached := reachable_moves (Request.serve {}) Fresh (.empty fun _ => true) lateReport (by decide +kernel)
  ⟨_, reached, lease_ends_once {} _ reached, .inl (by decide +kernel), by decide +kernel⟩

end OmarchyPool.Factory
