/-
# OmarchyPool.Factory.Attempts -- how often a task is leased

Each lease spends an attempt.  A report that its host could not run the build natively gives
one back, and marks the task so that it can do so twice; a lease lost on its host gives one
back while `host_losses` is below two, whichever of the two paths counts it.  So a task is
leased at most `max_attempts + 4` times (`attempts_bounded`).

`Task.Paced` is the account of a row.  Every write of the queue keeps it (`Paced.set`), a
failed report's only if what `handleFail` decided from the row it read is right of the row it
writes (`FailWrite.Decides`): it is when nothing came between, and for a host's lease also when
something did, since the same lease has the same attempts, losses and marks (`Steady`).
-/
import OmarchyPool.Factory.History

namespace OmarchyPool.Factory

open Lib

set_option autoImplicit false

/-! ## The account of a row -/

/-- The attempts a task's marks say it was given back. -/
def Task.nativeRefunds (t : Task) : Int :=
  if t.params.refused4k then 2 else if t.params.needsNative then 1 else 0

structure Task.Paced (t : Task) (leases : Nat) : Prop where
  low : 0 ≤ t.attempts
  high : t.attempts ≤ t.maxAttempts
  queued : t.status = .queued → t.attempts < t.maxAttempts
  leased : t.status = .leased → 1 ≤ t.attempts
  taken : (leases : Int) ≤ t.attempts + t.nativeRefunds + min t.hostLosses hostLossesMax

/-- What `handleFail` bound is right of the row. -/
structure FailWrite.Decides (f : FailWrite) (t : Task) : Prop where
  native : f.needsNative = true → f.lost = false ∧ t.params.refused4k = false ∧
    (t.params.needsNative = true → f.refused4k = true)
  lost : f.lost = true → t.hostLosses < hostLossesMax
  queues : f.exhausted = false → f.needsNative = true ∨ f.lost = true ∨ t.attempts < t.maxAttempts

/-- The writes that keep the account: no revoked lease, no retry, and no pin that drops the marks. -/
def Write.Plain (t : Task) : Write → Prop
  | .fail f => f.Decides t
  | .revoked .. | .retry .. => False
  | .pin _ _ params => (t.params.needsNative = true → params.needsNative = true) ∧
      (t.params.refused4k = true → params.refused4k = true)
  | _ => True

def Write.leaseCount : Write → Nat
  | .lease _ => 1
  | _ => 0

theorem Task.Paced.fail {t : Task} {leases : Nat} (paced : t.Paced leases) (isLeased : t.status = .leased)
    {f : FailWrite} (decides : f.Decides t) : ((Write.fail f).set t).Paced leases := by
  obtain ⟨low, high, -, leased, taken⟩ := paced
  have spent := leased isLeased
  obtain ⟨native, lost, queues⟩ := decides
  simp only [Task.nativeRefunds, hostLossesMax] at taken lost
  cases isNative : f.needsNative with
  | true =>
      obtain ⟨notLost, notRefused, refuses⟩ := native isNative
      refine ⟨?_, ?_, ?_, ?_, ?_⟩
      · simp [Write.set, isNative, notLost]
        omega
      · simp [Write.set, isNative, notLost]
        omega
      · simp [Write.set, isNative, notLost]
        omega
      · simp only [Write.set]
        split <;> intro impossible <;> cases impossible
      · simp only [Write.set, isNative, notLost, Task.nativeRefunds, hostLossesMax, notRefused, Bool.or_false,
          if_true, Bool.false_eq_true, if_false] at taken ⊢
        cases marked : t.params.needsNative with
        | true =>
            simp only [marked, refuses marked, if_true] at taken ⊢
            omega
        | false =>
            simp only [marked, Bool.false_eq_true, if_false] at taken
            split <;> omega
  | false =>
      have marks : ((Write.fail f).set t).nativeRefunds = t.nativeRefunds := by
        simp [Write.set, isNative, Task.nativeRefunds]
      cases isLost : f.lost with
      | true =>
          have room := lost isLost
          refine ⟨?_, ?_, ?_, ?_, ?_⟩
          · simp [Write.set, isNative, isLost]
            omega
          · simp [Write.set, isNative, isLost]
            omega
          · simp [Write.set, isNative, isLost]
            omega
          · simp only [Write.set]
            split <;> intro impossible <;> cases impossible
          · rw [marks]
            simp only [Write.set, isNative, isLost, Task.nativeRefunds, hostLossesMax, Bool.false_eq_true, if_false,
              if_true]
            omega
      | false =>
          refine ⟨?_, ?_, ?_, ?_, ?_⟩
          · simpa [Write.set, isNative, isLost] using low
          · simpa [Write.set, isNative, isLost] using high
          · simp only [Write.set, isNative, isLost, Bool.false_eq_true, if_false, Int.sub_zero]
            split
            · intro impossible
              cases impossible
            · rename_i notExhausted
              intro _
              simpa [isNative, isLost] using queues (by simpa using notExhausted)
          · simp only [Write.set]
            split <;> intro impossible <;> cases impossible
          · rw [marks]
            simpa [Write.set, isNative, isLost, Task.nativeRefunds, hostLossesMax] using taken

theorem Task.Paced.lost {t : Task} {leases : Nat} (paced : t.Paced leases) (isLeased : t.status = .leased)
    (error : String) (id : TaskId) (worker : WorkerId) (gen : Gen) (at_ : Int) :
    ((Write.lost error id worker gen at_).set t).Paced leases := by
  obtain ⟨low, high, -, leased, taken⟩ := paced
  have spent := leased isLeased
  have marks : ((Write.lost error id worker gen at_).set t).nativeRefunds = t.nativeRefunds := rfl
  by_cases isSpent : t.spent = true
  · have losses : hostLossesMax ≤ t.hostLosses := by simpa [Task.spent] using isSpent
    refine ⟨?_, ?_, ?_, ?_, ?_⟩
    · simpa [Write.set, isSpent] using low
    · simpa [Write.set, isSpent] using high
    · simp only [Write.set, isSpent, if_true]
      split
      · intro impossible
        cases impossible
      · rename_i notLast
        intro _
        simpa [Task.last, isSpent] using notLast
    · simp only [Write.set]
      split <;> intro impossible <;> cases impossible
    · rw [marks]
      simp only [Write.set, isSpent, if_true, hostLossesMax] at taken losses ⊢
      omega
  · have losses : t.hostLosses < hostLossesMax := by simpa [Task.spent] using isSpent
    have notLast : t.last = false := by simp [Task.last, isSpent]
    refine ⟨?_, ?_, ?_, ?_, ?_⟩
    · simp [Write.set, isSpent]
    · simp only [Write.set, isSpent, Bool.false_eq_true, if_false]
      omega
    · simp only [Write.set, isSpent, Bool.false_eq_true, if_false]
      omega
    · simp [Write.set, notLast]
    · rw [marks]
      simp only [Write.set, isSpent, Bool.false_eq_true, if_false, hostLossesMax] at taken losses ⊢
      omega

theorem Task.Paced.requeue {t : Task} {leases : Nat} (paced : t.Paced leases) (at_ : Int) (error : String)
    (id : TaskId) (worker : WorkerId) (stopOrder : Option String) (expiredBefore : Option Int) :
    ((Write.requeue at_ error id worker stopOrder expiredBefore).set t).Paced leases := by
  obtain ⟨low, high, -, -, taken⟩ := paced
  refine ⟨low, high, ?_, ?_, taken⟩
  · simp only [Write.set]
    split
    · intro impossible
      cases impossible
    · rename_i room
      intro _
      simpa using room
  · simp only [Write.set]
    split <;> intro impossible <;> cases impossible

/-- Every plain write keeps the account of the rows it matches, and a lease adds to it. -/
theorem Task.Paced.set {t : Task} {leases : Nat} (paced : t.Paced leases) {w : Write} {q : Queue}
    (matched : w.guard q t = true) (plain : w.Plain t) : (w.set t).Paced (leases + w.leaseCount) := by
  have held : ∀ {worker gen}, t.heldAs worker gen = true → t.status = .leased := by
    intro worker gen holds
    simp only [Task.heldAs, Bool.and_eq_true, beq_iff_eq] at holds
    exact holds.1.1.1
  cases w with
  | enqueue | host => cases matched
  | lease l =>
      have room := paced.queued (Write.guard_lease matched).2
      have taken := paced.taken
      have low := paced.low
      refine ⟨?_, ?_, fun impossible => (by cases impossible), fun _ => ?_, ?_⟩
      · exact Int.add_nonneg low (by decide)
      · exact room
      · show (1 : Int) ≤ t.attempts + 1
        omega
      · show ((leases + 1 : Nat) : Int) ≤ t.attempts + 1 + t.nativeRefunds + min t.hostLosses hostLossesMax
        push_cast
        omega
  | replay | renew | missed | fence | fenceAll => exact ⟨paced.low, paced.high, paced.queued, paced.leased, paced.taken⟩
  | complete id worker gen completion at_ =>
      have marks : ((Write.complete id worker gen completion at_).set t).nativeRefunds = t.nativeRefunds := by
        rcases completion with _ | ⟨_, _ | _⟩ | _ <;> rfl
      refine ⟨paced.low, paced.high, ?_, ?_, ?_⟩
      · cases completion <;> intro impossible <;> cases impossible
      · cases completion <;> intro impossible <;> cases impossible
      · rw [marks]
        exact paced.taken
  | fail f =>
      simp only [Write.guard, Bool.and_eq_true] at matched
      exact paced.fail (held matched.2) plain
  | lost error id worker gen at_ =>
      simp only [Write.guard, Bool.and_eq_true] at matched
      exact paced.lost (held matched.2) error id worker gen at_
  | requeue at_ error id worker stopOrder expiredBefore =>
      exact paced.requeue at_ error id worker stopOrder expiredBefore
  | revoked | retry => exact False.elim plain
  | cancel scope error at_ =>
      cases scope <;>
        exact ⟨paced.low, paced.high, fun impossible => (by cases impossible), fun impossible => (by cases impossible),
          paced.taken⟩
  | published built sha256 =>
      exact ⟨paced.low, paced.high, fun impossible => (by cases impossible), fun impossible => (by cases impossible),
        paced.taken⟩
  | pin id worker params =>
      refine ⟨paced.low, paced.high, paced.queued, paced.leased, paced.taken.trans ?_⟩
      have marks : t.nativeRefunds ≤ ((Write.pin id worker params).set t).nativeRefunds := by
        obtain ⟨native, refused⟩ := plain
        simp only [Task.nativeRefunds, Write.set]
        split_ifs <;> grind
      show t.attempts + t.nativeRefunds + _ ≤ t.attempts + ((Write.pin id worker params).set t).nativeRefunds + _
      have same : ((Write.pin id worker params).set t).hostLosses = t.hostLosses := rfl
      rw [same]
      omega

/-! ## The account of the table -/

def LeaseEvent.task : LeaseEvent → TaskId
  | .leased id _ _ => id
  | .fenced id _ => id
  | .ended id _ _ => id

def LeaseEvent.leases (id : TaskId) : LeaseEvent → Bool
  | .leased task _ _ => task == id
  | _ => false

/-- How often a task was leased. -/
def Ledger.leasesOf (s : Ledger) (id : TaskId) : Nat := s.history.countP (·.leases id)

structure Paces (s : Ledger) : Prop where
  numbered : Numbered s.queue
  known : ∀ e ∈ s.history, e.task < s.queue.nextTask
  rows : ∀ t ∈ s.queue.tasks, t.Paced (s.leasesOf t.id)

theorem task_of_mem_trace {path : Ending} {t t' : Task} {e : LeaseEvent} (event : e ∈ t.trace path t') :
    e.task = t.id := by
  cases e with
  | leased id worker gen => exact (Task.leased_mem_trace.mp event).1
  | fenced id gen => exact (Task.fenced_mem_trace.mp event).1
  | ended id gen by_ => exact (Task.ended_mem_trace.mp event).1

theorem task_of_leases {id : TaskId} {e : LeaseEvent} (leases : e.leases id = true) : e.task = id := by
  cases e with
  | leased task worker gen => exact beq_iff_eq.mp leases
  | fenced | ended => cases leases

/-- A row's trace counts a lease only for a lease. -/
theorem countP_leases_trace (q : Queue) (w : Write) (t : Task) :
    (t.trace w.ending (q.after w t)).countP (·.leases t.id) ≤ if w.guard q t = true then w.leaseCount else 0 := by
  by_cases event : ∃ e ∈ t.trace w.ending (q.after w t), e.leases t.id = true
  · obtain ⟨e, inTrace, leases⟩ := event
    cases e with
    | fenced | ended => cases leases
    | leased id worker gen =>
        obtain ⟨l, rfl, matched, -⟩ := lease_of_leased_event inTrace
        rw [if_pos matched]
        have wasQueued : t.lease? = none := by simp [Task.lease?, (Write.guard_lease matched).2]
        have isLeased : (q.after (.lease l) t).lease? = some l.gen := by
          rw [Queue.after_of_guard matched]
          rfl
        simp only [Task.trace, wasQueued, isLeased, Write.leaseCount, reduceCtorEq, if_false, Option.map_none,
          Option.toList_none, List.nil_append, Option.map_some, Option.toList_some]
        exact List.countP_le_length
  · refine Nat.le_of_eq (List.countP_eq_zero.mpr fun e inTrace leases => event ⟨e, inTrace, leases⟩) |>.trans ?_
    exact Nat.zero_le _

theorem leasesOf_exec {s : Ledger} (numbered : Numbered s.queue) {t : Task} (member : t ∈ s.queue.tasks) (w : Write) :
    (s.exec w).leasesOf t.id ≤ s.leasesOf t.id + if w.guard s.queue t = true then w.leaseCount else 0 := by
  simp only [Ledger.leasesOf, Ledger.exec, List.countP_append]
  rw [countP_flatMap_of_one_row numbered.nodup member]
  · exact Nat.add_le_add_left (countP_leases_trace s.queue w t) _
  · intro other _ differs
    refine List.countP_eq_zero.mpr fun e event leases => differs ?_
    rw [← task_of_mem_trace event, task_of_leases leases]

theorem Task.Paced.fewer {t : Task} {leases leases' : Nat} (paced : t.Paced leases) (fewer : leases' ≤ leases) :
    t.Paced leases' :=
  ⟨paced.low, paced.high, paced.queued, paced.leased, le_trans (by exact_mod_cast fewer) paced.taken⟩

theorem Paces.exec {s : Ledger} (paces : Paces s) {w : Write}
    (plain : ∀ t ∈ s.queue.tasks, w.guard s.queue t = true → w.Plain t) : Paces (s.exec w) := by
  refine ⟨paces.numbered.exec w, ?_, ?_⟩
  · intro e event
    have grows : s.queue.nextTask ≤ (s.exec w).queue.nextTask := by
      cases w with
      | enqueue task => exact Nat.le_succ _
      | _ => exact Nat.le_refl _
    rcases mem_history_exec.mp event with old | ⟨t, member, new⟩
    · exact Nat.lt_of_lt_of_le (paces.known e old) grows
    · rw [task_of_mem_trace new]
      exact Nat.lt_of_lt_of_le (paces.numbered.below t member) grows
  · intro t' member
    rcases Queue.mem_exec member with ⟨t, old, rfl⟩ | ⟨task, rfl, rfl⟩
    · rw [(s.queue.after_sameRow w t).id]
      refine Task.Paced.fewer ?_ (leasesOf_exec paces.numbered old w)
      have paced := paces.rows t old
      by_cases matched : w.guard s.queue t = true
      · rw [Queue.after_of_guard matched, if_pos matched]
        exact paced.set matched (plain t old matched)
      · rw [Queue.after_of_not_guard matched, if_neg matched]
        exact paced
    · -- A new row: no event names its number yet.
      have none : (s.exec (.enqueue task)).leasesOf s.queue.nextTask = 0 := by
        refine List.countP_eq_zero.mpr fun e event leases => ?_
        rcases mem_history_exec.mp event with old | ⟨t, inTasks, new⟩
        · exact absurd (task_of_leases leases) (Nat.ne_of_lt (paces.known e old))
        · have below := paces.numbered.below t inTasks
          rw [← task_of_mem_trace new] at below
          exact absurd (task_of_leases leases) (Nat.ne_of_lt below)
      show (task.inserted s.queue.nextTask).Paced ((s.exec (.enqueue task)).leasesOf s.queue.nextTask)
      rw [none]
      refine ⟨by simp [Task.inserted], by simp [Task.inserted], by simp [Task.inserted],
        fun impossible => (by cases impossible), ?_⟩
      simp only [Task.inserted, Task.nativeRefunds, hostLossesMax]
      split_ifs <;> omega

theorem Paces.empty (mayLease : WorkerId → Bool) : Paces (.empty mayLease) := by
  constructor <;> simp [Ledger.empty]
  exact ⟨by simp, by simp⟩

/-! ## What `handleFail` decides -/

/-- What the report decides of a row holds of any row that is the same lease. -/
theorem Failure.write_decides (b : Brain) (f : Failure) {task t : Task} (same : task.SameLease t) (id : TaskId)
    (actor : Actor) : (f.write b task id actor).Decides t := by
  have attempts : t.attempts = task.attempts := by rw [same.1]
  have most : t.maxAttempts = task.maxAttempts := by rw [same.1]
  have losses : t.hostLosses = task.hostLosses := by rw [same.1]
  have marks : t.params = task.params := by rw [same.1]
  constructor
  · simp only [Failure.write, marks, Bool.and_eq_true, Bool.not_eq_true']
    rintro ⟨⟨⟨notLost, asked⟩, emulated⟩, notRefused⟩
    exact ⟨notLost, notRefused, fun marked => ⟨⟨⟨⟨notLost, asked⟩, emulated⟩, notRefused⟩, by simp [marked]⟩⟩
  · simp only [Failure.write, losses, Bool.and_eq_true, decide_eq_true_eq]
    exact fun lost => lost.2
  · simp only [Failure.write, attempts, most]
    grind

/-- What a contract must give for the account to be kept under it: every plain write is allowed, and
a row that is held as it was read is the lease that was read. -/
structure Pacing (c : Contract Ledger Event) : Prop where
  numbered : ∀ s, c.inv s → Numbered s.queue
  quiet : ∀ s, c.inv s → c.guar s s
  write : ∀ s w, c.inv s → c.meets (.write w) s →
    (∀ t ∈ s.queue.tasks, w.guard s.queue t = true → w.Plain t) → c.inv (s.exec w) ∧ c.guar s (s.exec w)
  same : ∀ s s', c.rely s s' → c.inv s → c.inv s' → ∀ task ∈ s.queue.tasks, task.status = .leased →
    ∀ t ∈ s'.queue.tasks, t.id = task.id → ∀ worker, t.heldAs worker task.leaseGen = true → task.SameLease t

section Pacing

variable {c : Contract Ledger Event} (pacing : Pacing c) {b : Brain} (valid : ∀ task, b.revokes task = false)
  {s : Ledger}
include pacing valid

theorem fail_paced (id : TaskId) (actor : Actor) (f : Failure) :
    (handleFail b id actor f).Spec c s fun _ _ => True := by
  refine owned_spec pacing.quiet (fun _ _ => trivial) fun s₁ task _ inv₁ inTasks isRow leased sameGen _ => ?_
  rw [valid task]
  refine reportBy_spec pacing.quiet (fun _ _ => trivial) (fun s₂ relied inv₂ meets => ?_) fun _ _ _ _ => trivial
  refine pacing.write s₂ _ inv₂ meets fun t member matched => f.write_decides b ?_ id actor
  simp only [Write.guard, Failure.write, Bool.and_eq_true, beq_iff_eq] at matched
  exact pacing.same s₁ s₂ relied inv₁ inv₂ task inTasks leased t member (matched.1.trans isRow.symm) _ matched.2

/-- Every other request runs plain writes, where its pins are. -/
theorem serve_paced (request : Request)
    (pins : ∀ s w, w.Issued b request → c.inv s → c.meets (.write w) s → match w with
      | .retry .. => False
      | .pin .. => ∀ t ∈ s.queue.tasks, w.guard s.queue t = true → w.Plain t
      | _ => True)
    (inv : c.inv s) : (request.serve b).Spec c s fun _ _ => True := by
  by_cases isFail : ∃ id actor f, request = .fail id actor f
  · obtain ⟨id, actor, f, rfl⟩ := isFail
    exact fail_paced pacing valid id actor f
  · have only : (request.serve b).Only fun label write =>
        (label = .read ∧ write = id) ∨ ∃ w : Write, w.Issued b request ∧ label = .write w ∧ write = Ledger.exec w :=
      only_issued (.inl ⟨rfl, rfl⟩) fun w issued => .inr ⟨w, issued, rfl, rfl⟩
    refine (Program.Only.spec (c := c) (fun _ _ => True) (fun _ _ _ _ _ => trivial) (fun _ => trivial)
      (fun _ _ _ => trivial) (fun _ _ _ => trivial) ?_ only inv).mono fun _ _ _ => trivial
    rintro label write (⟨-, rfl⟩ | ⟨w, issued, rfl, rfl⟩) t invT meets
    · exact ⟨invT, pacing.quiet t invT⟩
    · refine pacing.write t w invT meets fun row member matched => ?_
      have pinned := pins t w issued invT meets
      cases w with
      | fail f => exact absurd issued isFail
      | revoked error id worker gen =>
          obtain ⟨task, revoked⟩ := issued
          rw [valid task] at revoked
          cases revoked
      | retry id size => exact pinned
      | pin id worker params => exact pinned row member matched
      | _ => trivial

end Pacing

/-! ## One request after another -/

/-- No retry at a size, and no pin that drops the task's marks. -/
def PlainRequest : Request → Ledger → Prop
  | .retry .., _ => False
  | .pin id worker params, s => ∀ t ∈ s.queue.tasks, t.id = id → (Write.pin id worker params).Plain t
  | _, _ => True

instance (t : Task) (id : TaskId) (worker : Option WorkerId) (params : Params) :
    Decidable ((Write.pin id worker params).Plain t) :=
  inferInstanceAs (Decidable ((t.params.needsNative = true → params.needsNative = true) ∧
    (t.params.refused4k = true → params.refused4k = true)))

instance (request : Request) (s : Ledger) : Decidable (PlainRequest request s) := by
  cases request <;> (unfold PlainRequest; infer_instance)

def aloneContract : Contract Ledger Event where
  inv := Paces
  rely := Eq
  guar := fun _ _ => True
  meets := Unrestricted

theorem aloneContract_pacing : Pacing aloneContract where
  numbered := fun _ paces => paces.numbered
  quiet := fun _ _ => trivial
  write := fun _ _ paces _ plain => ⟨paces.exec plain, trivial⟩
  same := by
    rintro s _ rfl paces _ task inTasks _ t member sameId worker _
    obtain rfl := paces.numbered.unique inTasks member sameId.symm
    exact .refl task

theorem paces_alone {b : Brain} (valid : ∀ task, b.revokes task = false) (request : Request) (s : Ledger)
    (plain : PlainRequest request s) (paces : Paces s) : Paces ((request.serve b).run s).2 := by
  have alone : (∀ id worker params, request ≠ .pin id worker params) →
      (∀ id size largest r, request ≠ .retry id size largest r) → Paces ((request.serve b).run s).2 := by
    intro noPin noRetry
    refine (Program.run_spec (c := aloneContract) (fun _ => rfl) (fun _ _ => trivial) paces
      (serve_paced aloneContract_pacing valid request ?_ paces)).1
    intro t w issued _ _
    cases w with
    | retry id size =>
        obtain ⟨id, size, largest, r, isRetry⟩ := issued
        exact noRetry id size largest r isRetry
    | pin id worker params => exact absurd issued (noPin id worker params)
    | _ => trivial
  cases request with
  | retry => exact False.elim plain
  | pin id worker params =>
      refine paces.exec (w := .pin id worker params) fun t member matched => plain t member ?_
      simp only [Write.guard, Bool.and_eq_true, beq_iff_eq] at matched
      exact matched.1
  | _ => exact alone (by simp) (by simp)

/-! ## Host leases at once -/

/-- Hosts' leases, each with a generation of its own; no retry, and no pin that drops the marks. -/
def Ordinary : Event → Ledger → Prop
  | .write (.lease l), s => l.gen.isSome ∧ Fresh (.write (.lease l)) s
  | .write (.retry ..), _ => False
  | .write (.pin id worker params), s =>
      ∀ t ∈ s.queue.tasks, t.id = id → (Write.pin id worker params).Plain t
  | _, _ => True

theorem Ordinary.fresh {w : Write} {s : Ledger} (ordinary : Ordinary (.write w) s) : Fresh (.write w) s := by
  cases w with
  | lease l => exact ordinary.2
  | _ => trivial

def Hosted (q : Queue) : Prop := ∀ t ∈ q.tasks, t.status = .leased → t.leaseGen.isSome

theorem Hosted.exec {s : Ledger} (hosted : Hosted s.queue) {w : Write} (ordinary : Ordinary (.write w) s) :
    Hosted (s.exec w).queue := by
  intro t' member leased
  rcases Queue.mem_exec member with ⟨t, old, rfl⟩ | ⟨task, -, rfl⟩
  swap
  · cases leased
  rcases leased_after leased with ⟨l, rfl, matched⟩ | ⟨was, same⟩
  · rw [Queue.after_of_guard matched]
    exact ordinary.1
  · rw [same.1]
    exact hosted t old was

theorem Task.SameLease.trans {t t' t'' : Task} (first : t.SameLease t') (second : t'.SameLease t'') :
    t.SameLease t'' := by
  refine ⟨?_, second.2 ∘ first.2⟩
  rw [second.1, first.1]

/-- A lease that was read is the row's still, or has ended. -/
def Steady (s s' : Ledger) : Prop :=
  (∀ e ∈ s.history, e ∈ s'.history) ∧ ∀ t ∈ s.queue.tasks, ∃ t' ∈ s'.queue.tasks, t'.id = t.id ∧
    ∀ gen, t.lease? = some (some gen) →
      (∃ path, .ended t.id (some gen) path ∈ s'.history) ∨ t'.lease? = some (some gen) ∧ t.SameLease t'

theorem Steady.refl (s : Ledger) : Steady s s :=
  ⟨fun _ event => event, fun t member => ⟨t, member, rfl, fun _ holds => .inr ⟨holds, .refl t⟩⟩⟩

theorem Steady.trans {a b d : Ledger} (first : Steady a b) (second : Steady b d) : Steady a d := by
  refine ⟨fun e event => second.1 e (first.1 e event), fun t member => ?_⟩
  obtain ⟨t', member', sameId, holds⟩ := first.2 t member
  obtain ⟨t'', member'', sameId', holds'⟩ := second.2 t' member'
  refine ⟨t'', member'', sameId'.trans sameId, fun gen held => ?_⟩
  rcases holds gen held with ⟨path, ended⟩ | ⟨held', same⟩
  · exact .inl ⟨path, second.1 _ ended⟩
  rcases holds' gen held' with ⟨path, ended⟩ | ⟨held'', same'⟩
  · exact .inl ⟨path, sameId ▸ ended⟩
  · exact .inr ⟨held'', same.trans same'⟩

theorem Steady.exec (s : Ledger) (w : Write) : Steady s (s.exec w) := by
  refine ⟨fun e event => mem_history_exec.mpr (.inl event), fun t member =>
    ⟨_, Queue.after_mem_exec member, (s.queue.after_sameRow w t).id, fun gen held => ?_⟩⟩
  by_cases still : (s.queue.after w t).lease? = some (some gen)
  · rcases lease?_after still with ⟨l, rfl, matched, -⟩ | ⟨-, same⟩
    · simp [Task.lease?, (Write.guard_lease matched).2] at held
    · exact .inr ⟨still, same⟩
  · exact .inl ⟨w.ending, mem_history_exec.mpr
      (.inr ⟨t, member, Task.ended_mem_trace.mpr ⟨rfl, rfl, held, still⟩⟩)⟩

def hostedContract : Contract Ledger Event where
  inv := fun s => Accounted s ∧ Paces s ∧ Hosted s.queue
  rely := Steady
  guar := Steady
  meets := Ordinary

theorem hostedContract_pacing : Pacing hostedContract where
  numbered := fun _ inv => inv.2.1.numbered
  quiet := fun s _ => .refl s
  write := fun s w inv ordinary plain =>
    ⟨⟨inv.1.exec ordinary.fresh, inv.2.1.exec plain, inv.2.2.exec ordinary⟩, .exec s w⟩
  same := by
    intro s s' steady inv inv' task inTasks leased t member sameId worker held
    obtain ⟨gen, isGen⟩ := Option.isSome_iff_exists.mp (inv.2.2 task inTasks leased)
    rw [isGen] at held
    obtain ⟨t', member', sameId', holds⟩ := steady.2 task inTasks
    obtain rfl := inv'.1.numbered.unique member' member (sameId'.trans sameId.symm)
    rcases holds gen (Task.lease?_eq_some.mpr ⟨leased, isGen⟩) with ⟨path, ended⟩ | ⟨-, same⟩
    · rw [inv'.1.spent task.id gen (.inr ⟨path, ended⟩) t' member sameId worker] at held
      cases held
    · exact same

/-! ## The bound -/

/-- A queued task has an attempt left, a leased one has spent one, and none was leased more than four
times beyond its attempts. -/
def Limited (s : Ledger) : Prop :=
  ∀ t ∈ s.queue.tasks,
    (t.status = .queued → t.attempts < t.maxAttempts) ∧
    (t.status = .leased → 1 ≤ t.attempts ∧ t.attempts ≤ t.maxAttempts) ∧
    (s.leasesOf t.id : Int) ≤ t.maxAttempts + 4

theorem Paces.limited {s : Ledger} (paces : Paces s) : Limited s := by
  intro t member
  obtain ⟨-, high, queued, leased, taken⟩ := paces.rows t member
  refine ⟨queued, fun isLeased => ⟨leased isLeased, high⟩, ?_⟩
  have marks : t.nativeRefunds ≤ 2 := by
    unfold Task.nativeRefunds
    split_ifs <;> omega
  simp only [hostLossesMax] at taken
  omega

/-- With no release revoked, no retry at a size and no pin that drops a task's marks: the bound holds
after any sequence of requests, whatever registrations lease; and in any interleaving of their
statements, where the leases are hosts' with generations of their own. -/
theorem attempts_bounded (b : Brain) (valid : ∀ release, b.revoked release = false) (mayLease : WorkerId → Bool) :
    (∀ s, Sequence (Request.serve b) PlainRequest (.empty mayLease) s → Limited s) ∧
    ∀ config : Config Ledger Request Event Refusal Unit,
      Reachable (Request.serve b) Ordinary (.empty mayLease) config → Limited config.store := by
  have noneRevoked : ∀ task : Task, b.revokes task = false := by
    intro task
    unfold Brain.revokes
    cases task.release with
    | none => rfl
    | some release => exact valid release
  constructor
  · intro s reached
    exact (Runs.induct Paces (.empty mayLease)
      (fun request s plain paces => paces_alone noneRevoked request s plain paces) reached).limited
  · intro config reached
    have start : hostedContract.inv (.empty mayLease) :=
      ⟨.empty mayLease, .empty mayLease, by simp [Hosted, Ledger.empty]⟩
    have kept := (reachable_spec hostedContract (fun _ _ _ => True) Steady.refl (fun _ _ _ => Steady.trans)
      (fun _ _ steady => steady) start (fun request s inv => ?_) reached).1
    · exact kept.2.1.limited
    · refine serve_paced hostedContract_pacing noneRevoked request (fun s w _ _ ordinary => ?_) inv
      cases w with
      | retry => exact ordinary
      | pin id worker params =>
          intro t member matched
          refine ordinary t member ?_
          simp only [Write.guard, Bool.and_eq_true, beq_iff_eq] at matched
          exact matched.1
      | _ => trivial

/-- A host whose lane is emulated on 4K pages. -/
def emulatedClaim (tag : String) : Request :=
  .claim { claimOf "e" "b" tag with
    me := { nativeHost "e" 5 with lanes := [⟨.x86_64, .emulated, some false⟩] }, others := [] }

def nativeClaim (tag : String) : Request := .claim { claimOf "a" "b" tag with others := [] }

/-- A build lost twice, refused twice by its emulated host, and failed three times. -/
def sevenLeases : List Request :=
  [.enqueue (jobTask .build "p" .x86_64 {}),
   emulatedClaim "g", .fail 1 (.job 1 "e" (some "g0")) { lost := true },
   emulatedClaim "h", .fail 1 (.job 1 "e" (some "h0")) { lost := true },
   emulatedClaim "i", .fail 1 (.job 1 "e" (some "i0")) { needsNative := true },
   emulatedClaim "j", .fail 1 (.job 1 "e" (some "j0")) { needsNative := true },
   nativeClaim "k", .fail 1 (.job 1 "a" (some "k0")) {},
   nativeClaim "l", .fail 1 (.job 1 "a" (some "l0")) {},
   nativeClaim "m", .fail 1 (.job 1 "a" (some "m0")) {}]

theorem attempts_bounded_of_sevenLeases :
    ∃ s, Sequence (Request.serve {}) PlainRequest (.empty fun _ => true) s ∧ Limited s ∧ s.leasesOf 1 = 7 ∧
      s.queue.tasks.map (·.status) = [.failed] :=
  have reached := Runs.steps sevenLeases (.start : Sequence (Request.serve {}) PlainRequest (.empty fun _ => true) _)
    (by decide)
  ⟨_, reached, (attempts_bounded {} (fun _ => rfl) fun _ => true).1 _ reached, by decide +kernel, by decide +kernel⟩

end OmarchyPool.Factory
