/-
# OmarchyPool.Factory.Writes -- what the statements of the factory can do

Every statement of every request is a read or one of the queue's writes (`serve_only`), so
what each write keeps, every interleaving keeps (`reachable_writes`).  A row keeps its number,
its kind and its owner for good (`after_fixed`).  And a row is leased after a write for one of
two reasons (`leased_after`): this write leased it, or it was leased and still is, in the same
lease.
-/
import Mathlib
import OmarchyPool.Factory.Leases

namespace OmarchyPool.Factory

open Lib

set_option autoImplicit false

/-! ## The statements of the requests -/

inductive Writes : Event → (Ledger → Ledger) → Prop where
  | read : Writes .read id
  | write (w : Write) : Writes (.write w) (Ledger.exec w)

section Only

variable {allowed : Event → (Ledger → Ledger) → Prop}

theorem only_query {α : Type} (reads : allowed .read id) (read : Queue → α) :
    (Handler.query read).Only allowed := Program.Only.query reads

theorem only_update {w : Write} (ok : allowed (.write w) (Ledger.exec w)) :
    (Handler.update w).Only allowed := ⟨ok, fun _ => trivial⟩

theorem only_returning {w : Write} (ok : allowed (.write w) (Ledger.exec w)) :
    (Handler.returning w).Only allowed := ⟨ok, fun _ => trivial⟩

theorem only_once {w : Write} (ok : allowed (.write w) (Ledger.exec w)) : (once w).Only allowed :=
  (only_update ok).bind fun _ => trivial

/-- `owned` reads, and gives back a row the caller's lease is on. -/
theorem only_owned {α : Type} (reads : allowed .read id) {id : TaskId} {actor : Actor}
    {rest : Task → Handler α}
    (after : ∀ task, task.leaseGen = actor.gen → (rest task).Only allowed) :
    ((owned id actor).bind rest).Only allowed := by
  unfold owned
  split
  · refine ⟨reads, fun s => ?_⟩
    dsimp only [Handler.query, Program.query, Program.bind]
    split
    · trivial
    · split
      · trivial
      split
      · trivial
      rename_i sameGen
      split
      · trivial
      · exact after _ (not_not.mp sameGen)
  · trivial

end Only

section Serve

variable {allowed : Event → (Ledger → Ledger) → Prop} (reads : allowed .read id)
include reads

theorem only_leaseMoved {α : Type} (id : TaskId) (actor : Actor) :
    (leaseMoved id actor : Handler α).Only allowed := only_owned reads fun _ _ => trivial

theorem only_report {w : Write} (ok : allowed (.write w) (Ledger.exec w)) (id : TaskId) (actor : Actor) :
    (reportBy id actor w).Only allowed := by
  refine (only_update ok).bind fun changed => ?_
  cases changed with
  | true => trivial
  | false => exact only_leaseMoved reads id actor

omit reads in
theorem only_leaseFirst (k : Claim) (candidates : List Candidate) (choices : List Choice)
    (leases : ∀ try_, ∀ c ∈ choices, allowed (.write (.lease (k.leaseWrite candidates try_ c)))
      (Ledger.exec (.lease (k.leaseWrite candidates try_ c)))) (try_ : Nat) :
    (leaseFirst k candidates try_ choices).Only allowed := by
  induction choices generalizing try_ with
  | nil => trivial
  | cons c rest ih =>
      refine (only_returning (leases try_ c (by simp))).bind fun task => ?_
      cases task with
      | some task => trivial
      | none => exact ih (fun n d member => leases n d (by simp [member])) (try_ + 1)

theorem only_claim (k : Claim) (leases : ∀ l, allowed (.write (.lease l)) (Ledger.exec (.lease l))) :
    (selectAndLease k).Only allowed := by
  unfold selectAndLease
  refine (only_query reads _).bind fun some_ => ?_
  split
  · trivial
  refine (only_query reads _).bind fun held => ?_
  split
  · trivial
  exact (only_query reads _).bind fun candidates => only_leaseFirst k candidates _ (fun _ _ _ => leases _) 0

/-- Which requests run a statement: a lease is a claim's, a failed report's UPDATE is `handleFail`'s,
and a lease is given back as revoked where its release is. -/
def Write.Issued (b : Brain) (request : Request) : Write → Prop
  | .lease _ => ∃ k, request = .claim k
  | .fail _ => ∃ id actor failure, request = .fail id actor failure
  | .revoked .. => ∃ task, b.revokes task = true
  | .retry .. => ∃ id size largest r, request = .retry id size largest r
  | .pin id worker params => request = .pin id worker params
  | _ => True

variable {b : Brain} {request : Request} (writes : ∀ w : Write, w.Issued b request → allowed (.write w) (Ledger.exec w))
include writes

theorem only_heartbeat (id : TaskId) (actor : Actor) (expires : Int) :
    (handleHeartbeat b id actor expires).Only allowed := by
  refine only_owned reads fun task _ => ?_
  split
  · trivial
  · exact only_report reads (writes _ (by trivial)) id actor

theorem only_fail {id : TaskId} {actor : Actor} {f : Failure} (isFail : request = .fail id actor f) :
    (handleFail b id actor f).Only allowed := by
  refine only_owned reads fun task _ => ?_
  split
  · rename_i revoked
    exact only_report reads (writes _ (by exact ⟨task, revoked⟩)) id actor
  · exact only_report reads (writes _ (by exact ⟨id, actor, f, isFail⟩)) id actor

omit reads in
theorem only_supersede (error : String) (older : List Task) : (supersede error older).Only allowed := by
  induction older with
  | nil => trivial
  | cons o rest ih =>
      exact (only_update (writes _ (by trivial))).bind fun _ => (only_update (writes _ (by trivial))).bind fun _ =>
        (only_update (writes _ (by trivial))).bind fun _ => ih

theorem only_afterJob (task : Task) (report : Report) : (afterJob task report).Only allowed := by
  unfold afterJob
  split
  · refine (only_query reads _).bind fun idle => ?_
    split
    · exact (only_update (writes _ (by trivial))).bind fun _ => trivial
    · trivial
  · split
    · exact (only_update (writes _ (by trivial))).bind fun _ => trivial
    · trivial
  · trivial

theorem only_complete (id : TaskId) (actor : Actor) (report : Report) :
    (handleComplete b id actor report).Only allowed := by
  refine only_owned reads fun task _ => ?_
  split
  · trivial
  split
  · exact Program.Only.bind (only_report reads (writes _ (by trivial)) id actor) fun _ =>
      only_afterJob reads writes task report
  split
  · trivial
  split
  · split
    · trivial
    refine Program.Only.bind (only_report reads (writes _ (by trivial)) id actor) fun _ => ?_
    refine (only_query reads _).bind fun older => ?_
    refine (only_supersede writes _ older).bind fun _ => (only_update (writes _ (by trivial))).bind fun _ => ?_
    split
    · exact (only_update (writes _ (by trivial))).bind fun _ => trivial
    · trivial
  split
  · trivial
  · exact only_report reads (writes _ (by trivial)) id actor

theorem only_reconcile (worker : WorkerId) (listed : List (TaskId × Gen)) (at_ : Int) :
    (reconcileHost b worker listed at_).Only allowed := by
  unfold reconcileHost
  refine (only_query reads _).bind fun held => ?_
  induction held with
  | nil => trivial
  | cons t rest ih =>
      refine Program.Only.bind ?_ fun _ => ih
      unfold reconcileOne
      split
      · trivial
      split
      · trivial
      extract_lets seen missed
      split
      · split
        · rename_i revoked
          exact (only_update (writes _ (by exact ⟨t, revoked⟩))).bind fun _ => trivial
        · exact (only_update (writes _ (by trivial))).bind fun _ => trivial
      split
      · exact (only_update (writes _ (by trivial))).bind fun _ => trivial
      · trivial

theorem only_requeue (at_ : Int) : (requeueExpiredLeases b at_).Only allowed := by
  unfold requeueExpiredLeases
  refine (only_query reads _).bind fun expired => ?_
  induction expired with
  | nil => trivial
  | cons t rest ih => exact (only_update (writes _ (by trivial))).bind fun _ => ih

theorem only_endStop (order : String) (id : TaskId) (worker : WorkerId)
    (listed : List (TaskId × Gen)) (at_ : Int) : (endStop b order id worker listed at_).Only allowed := by
  unfold endStop
  refine (only_query reads _).bind fun found => ?_
  split
  · trivial
  split
  · split
    · trivial
    · exact (only_update (writes _ (by trivial))).bind fun _ => trivial
  · trivial

theorem only_retry {id : TaskId} {size largest : Nat} {r : Rules} (isRetry : request = .retry id size largest r) :
    (handleRetryAtSize id size largest r).Only allowed := by
  unfold handleRetryAtSize
  refine (only_query reads _).bind fun found => ?_
  split
  · trivial
  extract_lets most
  split
  · trivial
  split
  · trivial
  refine (only_update (writes _ (by exact ⟨id, size, largest, r, isRetry⟩))).bind fun changed => ?_
  cases changed <;> trivial

/-- The statements of a request are reads, and the writes that are its own. -/
theorem only_issued : (request.serve b).Only allowed := by
  cases request with
  | claim k => exact (only_claim reads k fun _ => writes _ ⟨k, rfl⟩).bind fun _ => trivial
  | heartbeat id actor expires => exact only_heartbeat reads writes id actor expires
  | complete id actor report => exact only_complete reads writes id actor report
  | fail id actor failure => exact only_fail reads writes rfl
  | reconcile worker listed at_ => exact only_reconcile reads writes worker listed at_
  | expire at_ => exact only_requeue reads writes at_
  | endStop order id worker listed at_ => exact only_endStop reads writes order id worker listed at_
  | retry id size largest r => exact only_retry reads writes rfl
  | pin id worker params => exact only_once (writes _ (by exact rfl))
  | enqueue | replay | stop | suspend | cancel | host => exact only_once (writes _ (by trivial))

end Serve

/-- Every statement is a read or a write of the queue. -/
theorem serve_only (b : Brain) (request : Request) : (request.serve b).Only Writes :=
  only_issued .read fun w _ => .write w

/-! ## Reports under a contract -/

section Report

variable {c : Contract Ledger Event} (quiet : ∀ t, c.inv t → c.guar t t) {α : Type} {id : TaskId} {actor : Actor}
  {s : Ledger}
include quiet

/-- `owned` reads, and what follows knows the row it read. -/
theorem owned_spec {post : Except Refusal α → Ledger → Prop} {rest : Task → Handler α}
    (refused : ∀ why t, post (.error why) t)
    (after : ∀ s' task, c.rely s s' → c.inv s' → task ∈ s'.queue.tasks → task.id = id → task.status = .leased →
      task.leaseGen = actor.gen → actor.mayAct id = true → (rest task).Spec c s' post) :
    ((owned id actor).bind rest).Spec c s post := by
  unfold owned
  split
  · rename_i may
    intro s' relied inv _
    refine ⟨inv, quiet s' inv, ?_⟩
    dsimp only [Handler.query, Program.query, Program.bind]
    split
    · exact refused _ _
    · rename_i task found
      split
      · exact refused _ _
      rename_i mine
      split
      · exact refused _ _
      rename_i sameGen
      split
      · exact refused _ _
      · exact after s' task relied inv (List.mem_of_find?_eq_some found)
          (by simpa using List.find?_some found) (not_not.mp fun other => mine (.inl other)) (not_not.mp sameGen) may
  · exact refused _ _

/-- A report's write on its own row. -/
theorem reportBy_spec {w : Write} {post : Except Refusal Unit → Ledger → Prop} (refused : ∀ why t, post (.error why) t)
    (keeps : ∀ s', c.rely s s' → c.inv s' → c.meets (.write w) s' →
      c.inv (s'.exec w) ∧ c.guar s' (s'.exec w))
    (after : ∀ s', c.rely s s' → c.inv s' → s'.queue.changes w = true → post (.ok ()) (s'.exec w)) :
    (reportBy id actor w).Spec c s post := by
  intro s' relied inv meets
  obtain ⟨kept, guar⟩ := keeps s' relied inv meets
  refine ⟨kept, guar, ?_⟩
  show (if s'.queue.changes w then _ else _ : Handler Unit).Spec c _ post
  cases changed : s'.queue.changes w with
  | true => exact after s' relied inv changed
  | false => exact owned_spec quiet refused fun _ _ _ _ _ _ _ _ _ => refused _ _

end Report

/-- What every write keeps where it may be taken, every interleaving keeps. -/
theorem reachable_writes {b : Brain} {meets : Event → Ledger → Prop} (inv : Ledger → Prop)
    (keeps : ∀ (w : Write) (s : Ledger), inv s → meets (.write w) s → inv (s.exec w)) {init : Ledger}
    (start : inv init) {config : Config Ledger Request Event Refusal Unit}
    (reached : Reachable (Request.serve b) meets init config) : inv config.store := by
  refine reachable_only inv (serve_only b) ?_ start reached
  intro label write allowed s kept met
  cases allowed with
  | read => exact kept
  | write w => exact keeps w s kept met

/-! ## Rows -/

/-- What no write of a row changes. -/
structure Task.SameRow (t t' : Task) : Prop where
  id : t'.id = t.id
  name : t'.name = t.name
  kind : t'.kind = t.kind
  trust : t'.trust = t.trust
  owner : t'.owner = t.owner
  maxAttempts : t'.maxAttempts = t.maxAttempts

theorem Write.set_sameRow (w : Write) (t : Task) : t.SameRow (w.set t) := by
  cases w with
  | cancel scope error at_ => cases scope <;> exact ⟨rfl, rfl, rfl, rfl, rfl, rfl⟩
  | _ => exact ⟨rfl, rfl, rfl, rfl, rfl, rfl⟩

namespace Queue

variable {q : Queue} {w : Write} {t : Task}

theorem after_of_guard (matched : w.guard q t = true) : q.after w t = w.set t := if_pos matched

theorem after_of_not_guard (missed : ¬ w.guard q t = true) : q.after w t = t := if_neg missed

theorem after_sameRow (q : Queue) (w : Write) (t : Task) : t.SameRow (q.after w t) := by
  unfold after
  split
  · exact w.set_sameRow t
  · exact ⟨rfl, rfl, rfl, rfl, rfl, rfl⟩

theorem mem_exec {t' : Task} (member : t' ∈ (q.exec w).tasks) :
    (∃ t ∈ q.tasks, t' = q.after w t) ∨ ∃ task, w = .enqueue task ∧ t' = task.inserted q.nextTask := by
  rcases List.mem_append.mp member with old | new
  · obtain ⟨t, inTasks, rfl⟩ := List.mem_map.mp old
    exact .inl ⟨t, inTasks, rfl⟩
  · cases w with
    | enqueue task => exact .inr ⟨task, rfl, List.mem_singleton.mp new⟩
    | _ => cases new

theorem after_mem_exec (member : t ∈ q.tasks) : q.after w t ∈ (q.exec w).tasks :=
  List.mem_append_left _ (List.mem_map.mpr ⟨t, member, rfl⟩)

end Queue

/-- The same lease, up to what renews it, fences it and counts the claims that miss it. -/
def Task.SameLease (t t' : Task) : Prop :=
  t' = { t with
    leaseExpiresAt := t'.leaseExpiresAt, stopOrder := t'.stopOrder, leaseMissed := t'.leaseMissed } ∧
  (t.stopOrder.isSome → t'.stopOrder.isSome)

theorem Task.SameLease.refl (t : Task) : t.SameLease t := ⟨rfl, fun fenced => fenced⟩

/-- A row is leased after a write because the write leases it, or because it was leased and the
write leaves it its lease. -/
theorem leased_after {q : Queue} {w : Write} {t : Task} (leased : (q.after w t).status = .leased) :
    (∃ l, w = .lease l ∧ w.guard q t = true) ∨ t.status = .leased ∧ t.SameLease (q.after w t) := by
  by_cases matched : w.guard q t = true
  · rw [Queue.after_of_guard matched] at leased ⊢
    cases w with
    | lease l => exact .inl ⟨l, rfl, matched⟩
    | enqueue | host => cases matched
    | replay | renew | missed => exact .inr ⟨leased, rfl, fun fenced => fenced⟩
    | fence | fenceAll => exact .inr ⟨leased, rfl, fun _ => rfl⟩
    | complete id worker gen completion at_ => cases completion <;> cases leased
    | fail | lost | requeue =>
        simp only [Write.set] at leased
        split at leased <;> cases leased
    | cancel scope error at_ => cases scope <;> cases leased
    | revoked | published | retry => cases leased
    | pin id worker params =>
        simp only [Write.set] at leased
        simp [Write.guard, leased] at matched
  · rw [Queue.after_of_not_guard matched] at leased ⊢
    exact .inr ⟨leased, .refl t⟩

theorem Write.guard_lease {q : Queue} {t : Task} {l : LeaseWrite} (matched : (Write.lease l).guard q t = true) :
    t.id = l.choice.id ∧ t.status = .queued := by
  simp only [Write.guard, Bool.and_eq_true, beq_iff_eq] at matched
  exact ⟨matched.1.1.1, matched.1.1.2⟩

/-! ## The rows' numbers -/

/-- Each row has its own number, below the table's next. -/
structure Numbered (q : Queue) : Prop where
  nodup : (q.tasks.map (·.id)).Nodup
  below : ∀ t ∈ q.tasks, t.id < q.nextTask

theorem Numbered.exec {q : Queue} (numbered : Numbered q) (w : Write) : Numbered (q.exec w) := by
  have same : (q.tasks.map (q.after w)).map (·.id) = q.tasks.map (·.id) := by
    rw [List.map_map]
    exact List.map_congr_left fun t _ => (q.after_sameRow w t).id
  constructor
  · cases w with
    | enqueue task =>
        simp only [Queue.exec, List.map_append, same]
        refine List.nodup_append.mpr ⟨numbered.nodup, by simp, ?_⟩
        rintro id old _ new rfl
        obtain ⟨t, member, rfl⟩ := List.mem_map.mp old
        simp only [Task.inserted, List.map_cons, List.map_nil, List.mem_singleton] at new
        exact absurd new (Nat.ne_of_lt (numbered.below t member))
    | _ =>
        simp only [Queue.exec, List.append_nil, same]
        exact numbered.nodup
  · intro t' member
    rcases Queue.mem_exec member with ⟨t, old, rfl⟩ | ⟨task, rfl, rfl⟩
    · rw [(q.after_sameRow w t).id]
      have below := numbered.below t old
      cases w with
      | enqueue task => exact Nat.lt_succ_of_lt below
      | _ => exact below
    · exact Nat.lt_succ_self _

theorem Numbered.unique {q : Queue} (numbered : Numbered q) {t t' : Task} (member : t ∈ q.tasks)
    (member' : t' ∈ q.tasks) (same : t.id = t'.id) : t = t' :=
  List.inj_on_of_nodup_map numbered.nodup member member' same

/-! ## What no write undoes -/

def Task.isOver (t : Task) : Bool := t.status == .done || t.status == .cancelled

def Flow (s s' : Ledger) : Prop :=
  ∀ t ∈ s.queue.tasks, ∃ t' ∈ s'.queue.tasks, t.SameRow t' ∧ (t.isOver = true → t'.isOver = true)

theorem Task.SameRow.refl (t : Task) : t.SameRow t := ⟨rfl, rfl, rfl, rfl, rfl, rfl⟩

theorem Task.SameRow.trans {t t' t'' : Task} (first : t.SameRow t') (second : t'.SameRow t'') : t.SameRow t'' where
  id := second.id.trans first.id
  name := second.name.trans first.name
  kind := second.kind.trans first.kind
  trust := second.trust.trans first.trust
  owner := second.owner.trans first.owner
  maxAttempts := second.maxAttempts.trans first.maxAttempts

theorem Flow.refl (s : Ledger) : Flow s s := fun t member => ⟨t, member, .refl t, fun isOver => isOver⟩

theorem Flow.trans {a b d : Ledger} (first : Flow a b) (second : Flow b d) : Flow a d := by
  intro t member
  obtain ⟨t', member', same, isOver⟩ := first t member
  obtain ⟨t'', member'', same', over'⟩ := second t' member'
  exact ⟨t'', member'', same.trans same', over' ∘ isOver⟩

/-- A finished row stays finished. -/
theorem over_after {q : Queue} {w : Write} {t : Task} (isOver : t.isOver = true) : (q.after w t).isOver = true := by
  by_cases matched : w.guard q t = true
  · rw [Queue.after_of_guard matched]
    have status : t.status = .done ∨ t.status = .cancelled := by simpa [Task.isOver] using isOver
    cases w with
    | cancel scope error at_ => cases scope <;> rfl
    | published => rfl
    | enqueue | host => cases matched
    | _ => rcases status with done | cancelled <;> simp_all [Write.guard, Task.heldAs]
  · rw [Queue.after_of_not_guard matched]
    exact isOver

theorem Flow.exec (s : Ledger) (w : Write) : Flow s (s.exec w) := fun t member =>
  ⟨_, Queue.after_mem_exec member, s.queue.after_sameRow w t, over_after⟩

end OmarchyPool.Factory
