/-
# OmarchyPool.Factory.History -- what the history of leases says

The history is recorded by comparing rows (`Task.trace`).  Where each host lease writes a
generation no lease had before (`Fresh`), the history accounts for the rows
(`Accounted.exec`): a row's lease is one that was taken and has not ended, a generation
is taken once, and one that ended or was fenced is no longer held by any row in a way a report
could use (`Accounted.spent`).
-/
import OmarchyPool.Factory.Writes
import OmarchyPool.Lib.Keyed

namespace OmarchyPool.Factory

open Lib

set_option autoImplicit false

/-! ## The trace of a row -/

namespace Task

variable {path : Ending} {t t' : Task}

theorem lease?_eq_some {gen : Option Gen} : t.lease? = some gen ↔ t.status = .leased ∧ t.leaseGen = gen := by
  unfold lease?
  split <;> simp_all

theorem leased_mem_trace {id : TaskId} {worker : Option WorkerId} {gen : Option Gen} :
    .leased id worker gen ∈ t.trace path t' ↔
      id = t.id ∧ worker = t'.leaseOwner ∧ t'.lease? = some gen ∧ t.lease? ≠ some gen := by
  unfold trace
  split
  · rename_i same
    rw [same]
    split <;> simp
  · rename_i differs
    simp only [List.mem_append, Option.mem_toList, Option.map_eq_some_iff, reduceCtorEq, and_false, exists_false,
      false_or, LeaseEvent.leased.injEq]
    constructor
    · rintro ⟨_, leased, rfl, rfl, rfl⟩
      exact ⟨rfl, rfl, leased, fun was => differs (was.trans leased.symm)⟩
    · rintro ⟨rfl, rfl, leased, -⟩
      exact ⟨gen, leased, rfl, rfl, rfl⟩

theorem ended_mem_trace {id : TaskId} {gen : Option Gen} {by_ : Ending} :
    .ended id gen by_ ∈ t.trace path t' ↔
      id = t.id ∧ by_ = path ∧ t.lease? = some gen ∧ t'.lease? ≠ some gen := by
  unfold trace
  split
  · rename_i same
    rw [same]
    split <;> simp
  · rename_i differs
    simp only [List.mem_append, Option.mem_toList, Option.map_eq_some_iff, reduceCtorEq, and_false, exists_false,
      or_false, LeaseEvent.ended.injEq]
    constructor
    · rintro ⟨_, leased, rfl, rfl, rfl⟩
      exact ⟨rfl, rfl, leased, fun now => differs (leased.trans now.symm)⟩
    · rintro ⟨rfl, rfl, leased, -⟩
      exact ⟨gen, leased, rfl, rfl, rfl⟩

theorem fenced_mem_trace {id : TaskId} {gen : Option Gen} :
    .fenced id gen ∈ t.trace path t' ↔
      id = t.id ∧ t.lease? = some gen ∧ t'.lease? = some gen ∧ t.stopOrder = none ∧ t'.stopOrder.isSome := by
  unfold trace
  split
  · rename_i same
    rw [← same]
    split
    · rename_i fenced
      simp only [Bool.and_eq_true, Option.isNone_iff_eq_none] at fenced
      simp only [Option.mem_toList, Option.map_eq_some_iff, LeaseEvent.fenced.injEq, fenced, and_true]
      constructor
      · rintro ⟨_, leased, rfl, rfl⟩
        exact ⟨rfl, leased, leased⟩
      · rintro ⟨rfl, leased, -⟩
        exact ⟨gen, leased, rfl, rfl⟩
    · rename_i notFenced
      simp only [List.not_mem_nil, false_iff]
      rintro ⟨-, -, -, unfenced, fenced⟩
      exact notFenced (by simp [unfenced, fenced])
  · rename_i differs
    simp only [List.mem_append, Option.mem_toList, Option.map_eq_some_iff, reduceCtorEq, and_false, exists_false,
      or_self, false_iff]
    rintro ⟨-, was, is, -⟩
    exact differs (was.trans is.symm)

end Task

/-! ## The trace of a write -/

theorem mem_history_exec {s : Ledger} {w : Write} {e : LeaseEvent} :
    e ∈ (s.exec w).history ↔
      e ∈ s.history ∨ ∃ t ∈ s.queue.tasks, e ∈ t.trace w.ending (s.queue.after w t) := by
  simp [Ledger.exec]

/-- A row holds a lease after a write because the write leased it, or held it before. -/
theorem lease?_after {q : Queue} {w : Write} {t : Task} {gen : Option Gen}
    (holds : (q.after w t).lease? = some gen) :
    (∃ l, w = .lease l ∧ w.guard q t = true ∧ l.gen = gen) ∨ t.lease? = some gen ∧ t.SameLease (q.after w t) := by
  obtain ⟨leased, sameGen⟩ := Task.lease?_eq_some.mp holds
  rcases leased_after leased with ⟨l, rfl, matched⟩ | ⟨was, same⟩
  · rw [Queue.after_of_guard matched] at sameGen
    exact .inl ⟨l, rfl, matched, sameGen⟩
  · refine .inr ⟨Task.lease?_eq_some.mpr ⟨was, ?_⟩, same⟩
    rw [same.1] at sameGen
    exact sameGen

theorem Task.SameLease.leaseOwner {t t' : Task} (same : t.SameLease t') : t'.leaseOwner = t.leaseOwner := by
  rw [same.1]

/-- Only a lease takes a lease. -/
theorem lease_of_leased_event {q : Queue} {w : Write} {t : Task} {id : TaskId} {worker : Option WorkerId}
    {gen : Option Gen} (event : .leased id worker gen ∈ t.trace w.ending (q.after w t)) :
    ∃ l, w = .lease l ∧ w.guard q t = true ∧ l.gen = gen := by
  obtain ⟨-, -, holds, held⟩ := Task.leased_mem_trace.mp event
  rcases lease?_after holds with taken | ⟨was, -⟩
  · exact taken
  · exact absurd was held

/-- A lease ends by a write that ends leases. -/
theorem ending_of_ended_event {q : Queue} {w : Write} {t : Task} {id : TaskId} {gen : Option Gen} {path : Ending}
    (event : .ended id gen path ∈ t.trace w.ending (q.after w t)) : path ≠ .other := by
  obtain ⟨-, rfl, was, isNot⟩ := Task.ended_mem_trace.mp event
  obtain ⟨leased, sameGen⟩ := Task.lease?_eq_some.mp was
  intro other
  apply isNot
  by_cases matched : w.guard q t = true
  · rw [Queue.after_of_guard matched, Task.lease?_eq_some]
    cases w with
    | complete | fail | lost | requeue | revoked | cancel => cases other
    | replay | renew | missed | fence | fenceAll | enqueue | host => exact ⟨leased, sameGen⟩
    | lease | published | retry | pin => simp [Write.guard, leased] at matched
  · rw [Queue.after_of_not_guard matched]
    exact was

/-! ## Accounts -/

/-- A host's lease writes a generation no lease had before. -/
def Fresh : Event → Ledger → Prop
  | .write (.lease l), s => ∀ e ∈ s.history, match e with
      | .leased _ _ (some gen) => l.gen ≠ some gen
      | _ => True
  | _, _ => True

instance (label : Event) (s : Ledger) : Decidable (Fresh label s) := by
  unfold Fresh
  split
  · refine @List.decidableBAll _ _ (fun e => ?_) _
    split <;> infer_instance
  · infer_instance

theorem Fresh.new {s : Ledger} {l : LeaseWrite} (fresh : Fresh (.write (.lease l)) s) {gen : Gen}
    (writes : l.gen = some gen) (id : TaskId) (worker : Option WorkerId) :
    .leased id worker (some gen) ∉ s.history :=
  fun old => fresh _ old writes

/-- The lease has ended, or was fenced. -/
def Spent (history : List LeaseEvent) (id : TaskId) (gen : Gen) : Prop :=
  .fenced id (some gen) ∈ history ∨ ∃ path, .ended id (some gen) path ∈ history

def LeaseEvent.takes (gen : Gen) : LeaseEvent → Bool
  | .leased _ _ g => g == some gen
  | _ => false

def LeaseEvent.ends (gen : Gen) : LeaseEvent → Bool
  | .ended _ g _ => g == some gen
  | _ => false

def Task.holds (gen : Gen) (t : Task) : Bool := t.lease? == some (some gen)

structure Accounted (s : Ledger) : Prop where
  numbered : Numbered s.queue
  /-- A row's lease was taken. -/
  taken : ∀ t ∈ s.queue.tasks, ∀ gen, t.lease? = some (some gen) → .leased t.id t.leaseOwner (some gen) ∈ s.history
  /-- What was taken has ended, or is the row's lease. -/
  held : ∀ id worker gen, .leased id worker (some gen) ∈ s.history →
    (∃ path, .ended id (some gen) path ∈ s.history) ∨
      ∃ t ∈ s.queue.tasks, t.id = id ∧ t.lease? = some (some gen) ∧ t.leaseOwner = worker
  /-- What is spent was taken. -/
  begun : ∀ id gen, Spent s.history id gen → ∃ worker, .leased id worker (some gen) ∈ s.history
  /-- What is spent, no report can use. -/
  spent : ∀ id gen, Spent s.history id gen → ∀ t ∈ s.queue.tasks, t.id = id → ∀ worker,
    t.heldAs worker (some gen) = false
  once : ∀ gen, s.history.countP (·.takes gen) ≤ 1
  balance : ∀ gen, s.history.countP (·.takes gen) =
    s.history.countP (·.ends gen) + s.queue.tasks.countP (·.holds gen)
  paths : ∀ id gen path, .ended id gen path ∈ s.history → path ≠ .other

/-- What a row's change adds to the count of a generation's leases, and of their ends. -/
theorem Task.countP_takes_trace (path : Ending) (t t' : Task) (gen : Gen) :
    (t.trace path t').countP (·.takes gen) = if t'.holds gen && !t.holds gen then 1 else 0 := by
  unfold trace holds
  rcases t.lease? with _ | was <;> rcases t'.lease? with _ | is
  · simp
  · simp [LeaseEvent.takes, List.countP_cons]
  · simp [LeaseEvent.takes]
  · by_cases same : was = is
    · subst same
      simp only [if_true, Bool.and_not_self, Bool.false_eq_true, if_false]
      split <;> simp [LeaseEvent.takes]
    · simp only [Option.some.injEq, same, if_false]
      simp [LeaseEvent.takes, List.countP_cons]
      grind

theorem Task.countP_ends_trace (path : Ending) (t t' : Task) (gen : Gen) :
    (t.trace path t').countP (·.ends gen) = if t.holds gen && !t'.holds gen then 1 else 0 := by
  unfold trace holds
  rcases t.lease? with _ | was <;> rcases t'.lease? with _ | is
  · simp
  · simp [LeaseEvent.ends]
  · simp [LeaseEvent.ends, List.countP_cons]
  · by_cases same : was = is
    · subst same
      simp only [if_true, Bool.and_not_self, Bool.false_eq_true, if_false]
      split <;> simp [LeaseEvent.ends]
    · simp only [Option.some.injEq, same, if_false]
      simp [LeaseEvent.ends, List.countP_cons]
      grind

theorem Task.heldAs_iff {t : Task} {worker : WorkerId} {gen : Gen} :
    t.heldAs worker (some gen) = true ↔
      t.lease? = some (some gen) ∧ t.leaseOwner = some worker ∧ t.stopOrder = none := by
  simp only [heldAs, lease?_eq_some, Bool.and_eq_true, beq_iff_eq, Option.isNone_iff_eq_none]
  tauto

namespace Accounted

variable {s : Ledger} {w : Write}

theorem taken_exec (accounted : Accounted s) (t' : Task) (member : t' ∈ (s.exec w).queue.tasks) (gen : Gen)
    (holds : t'.lease? = some (some gen)) : .leased t'.id t'.leaseOwner (some gen) ∈ (s.exec w).history := by
  rcases Queue.mem_exec member with ⟨t, old, rfl⟩ | ⟨task, -, rfl⟩
  swap
  · cases holds
  rw [mem_history_exec, (s.queue.after_sameRow w t).id]
  rcases lease?_after holds with ⟨l, rfl, matched, -⟩ | ⟨was, same⟩
  · refine .inr ⟨t, old, Task.leased_mem_trace.mpr ⟨rfl, rfl, holds, ?_⟩⟩
    simp [Task.lease?, (Write.guard_lease matched).2]
  · rw [same.leaseOwner]
    exact .inl (accounted.taken t old gen was)

theorem held_exec (accounted : Accounted s) (id : TaskId) (worker : Option WorkerId) (gen : Gen)
    (event : .leased id worker (some gen) ∈ (s.exec w).history) :
    (∃ path, .ended id (some gen) path ∈ (s.exec w).history) ∨
      ∃ t ∈ (s.exec w).queue.tasks, t.id = id ∧ t.lease? = some (some gen) ∧ t.leaseOwner = worker := by
  rcases mem_history_exec.mp event with old | ⟨t, member, new⟩
  · rcases accounted.held id worker gen old with ⟨path, ended⟩ | ⟨t, member, rfl, holds, rfl⟩
    · exact .inl ⟨path, mem_history_exec.mpr (.inl ended)⟩
    · by_cases still : (s.queue.after w t).lease? = some (some gen)
      · refine .inr ⟨_, Queue.after_mem_exec member, (s.queue.after_sameRow w t).id, still, ?_⟩
        rcases lease?_after still with ⟨l, rfl, matched, -⟩ | ⟨-, same⟩
        · simp [Task.lease?, (Write.guard_lease matched).2] at holds
        · exact same.leaseOwner
      · exact .inl ⟨w.ending, mem_history_exec.mpr
          (.inr ⟨t, member, Task.ended_mem_trace.mpr ⟨rfl, rfl, holds, still⟩⟩)⟩
  · obtain ⟨rfl, rfl, holds, -⟩ := Task.leased_mem_trace.mp new
    exact .inr ⟨_, Queue.after_mem_exec member, (s.queue.after_sameRow w t).id, holds, rfl⟩

/-- What a write newly spends is the lease of a row. -/
theorem spent_exec_cases {id : TaskId} {gen : Gen} (spent : Spent (s.exec w).history id gen) :
    Spent s.history id gen ∨ ∃ t ∈ s.queue.tasks, t.id = id ∧ t.lease? = some (some gen) ∧
      ((s.queue.after w t).lease? = some (some gen) → (s.queue.after w t).stopOrder.isSome) := by
  rcases spent with fenced | ⟨path, ended⟩
  · rcases mem_history_exec.mp fenced with old | ⟨t, member, new⟩
    · exact .inl (.inl old)
    · obtain ⟨rfl, was, -, -, stopped⟩ := Task.fenced_mem_trace.mp new
      exact .inr ⟨t, member, rfl, was, fun _ => stopped⟩
  · rcases mem_history_exec.mp ended with old | ⟨t, member, new⟩
    · exact .inl (.inr ⟨path, old⟩)
    · obtain ⟨rfl, -, was, isNot⟩ := Task.ended_mem_trace.mp new
      exact .inr ⟨t, member, rfl, was, fun holds => absurd holds isNot⟩

theorem begun_exec (accounted : Accounted s) (id : TaskId) (gen : Gen)
    (spent : Spent (s.exec w).history id gen) : ∃ worker, .leased id worker (some gen) ∈ (s.exec w).history := by
  rcases spent_exec_cases spent with old | ⟨t, member, rfl, was, -⟩
  · obtain ⟨worker, event⟩ := accounted.begun id gen old
    exact ⟨worker, mem_history_exec.mpr (.inl event)⟩
  · exact ⟨_, mem_history_exec.mpr (.inl (accounted.taken t member gen was))⟩

theorem spent_exec (accounted : Accounted s) (fresh : Fresh (.write w) s) (id : TaskId) (gen : Gen)
    (spent : Spent (s.exec w).history id gen) (t' : Task) (member : t' ∈ (s.exec w).queue.tasks) (isRow : t'.id = id)
    (worker : WorkerId) : t'.heldAs worker (some gen) = false := by
  rw [Bool.eq_false_iff]
  intro usable
  obtain ⟨holds, owner, unfenced⟩ := Task.heldAs_iff.mp usable
  rcases Queue.mem_exec member with ⟨t, old, rfl⟩ | ⟨task, -, rfl⟩
  swap
  · cases holds
  rw [(s.queue.after_sameRow w t).id] at isRow
  rcases spent_exec_cases spent with before | ⟨row, inTasks, sameId, was, stopped⟩
  · rcases lease?_after holds with ⟨l, rfl, -, writes⟩ | ⟨held, same⟩
    · obtain ⟨worker', begun⟩ := accounted.begun id gen before
      exact fresh.new writes _ _ begun
    · have unfencedBefore : t.stopOrder = none := by
        by_contra fenced
        have := same.2 (Option.isSome_iff_ne_none.mpr fenced)
        simp [unfenced] at this
      have usableBefore : t.heldAs worker (some gen) = true :=
        Task.heldAs_iff.mpr ⟨held, same.leaseOwner ▸ owner, unfencedBefore⟩
      rw [accounted.spent id gen before t old isRow worker] at usableBefore
      cases usableBefore
  · obtain rfl := accounted.numbered.unique inTasks old (sameId.trans isRow.symm)
    have := stopped holds
    simp [unfenced] at this

/-- A write takes a generation at most once, and only a new one. -/
theorem once_exec (accounted : Accounted s) (fresh : Fresh (.write w) s) (gen : Gen) :
    (s.exec w).history.countP (·.takes gen) ≤ 1 := by
  simp only [Ledger.exec, List.countP_append, List.countP_flatMap]
  by_cases taken : ∃ l, w = .lease l ∧ l.gen = some gen
  · obtain ⟨l, rfl, writes⟩ := taken
    have none : s.history.countP (·.takes gen) = 0 := by
      refine List.countP_eq_zero.mpr fun e old takes => ?_
      cases e with
      | leased id worker g =>
          obtain rfl : g = some gen := by simpa [LeaseEvent.takes] using takes
          exact fresh.new writes _ _ old
      | fenced | ended => cases takes
    rw [none, Nat.zero_add]
    have nothing : (s.queue.tasks.map fun _ => 0).sum = 0 := by simp
    rw [← Nat.zero_add 1, ← nothing]
    refine sum_le_of_one_row (k := l.choice.id) accounted.numbered.nodup fun t member => ?_
    simp only [Function.comp_apply, Task.countP_takes_trace, Nat.zero_add]
    split
    · rename_i newly
      simp only [Task.holds, Bool.and_eq_true, beq_iff_eq, Bool.not_eq_true', beq_eq_false_iff_ne] at newly
      rcases lease?_after newly.1 with ⟨l', same, matched, -⟩ | ⟨was, -⟩
      · cases same
        rw [if_pos (Write.guard_lease matched).1]
      · exact absurd was newly.2
    · omega
  · have zero : (s.queue.tasks.map
        (List.countP (·.takes gen) ∘ fun t => t.trace w.ending (s.queue.after w t))).sum = 0 := by
      refine List.sum_eq_zero fun n counted => ?_
      obtain ⟨t, member, rfl⟩ := List.mem_map.mp counted
      simp only [Function.comp_apply, Task.countP_takes_trace]
      refine if_neg fun newly => ?_
      simp only [Task.holds, Bool.and_eq_true, beq_iff_eq, Bool.not_eq_true', beq_eq_false_iff_ne] at newly
      rcases lease?_after newly.1 with ⟨l, rfl, -, writes⟩ | ⟨was, -⟩
      · exact taken ⟨l, rfl, writes⟩
      · exact newly.2 was
    rw [zero, Nat.add_zero]
    exact accounted.once gen

/-- Rows that changed, and what their traces count. -/
theorem balance_rows (tasks : List Task) (path : Ending) (after : Task → Task) (gen : Gen) :
    (tasks.flatMap fun t => t.trace path (after t)).countP (·.takes gen) + tasks.countP (·.holds gen) =
      (tasks.flatMap fun t => t.trace path (after t)).countP (·.ends gen) +
        (tasks.map after).countP (·.holds gen) := by
  induction tasks with
  | nil => rfl
  | cons t rest ih =>
      simp only [List.flatMap_cons, List.countP_append, List.map_cons, List.countP_cons,
        Task.countP_takes_trace, Task.countP_ends_trace]
      cases t.holds gen <;> cases (after t).holds gen <;>
        simp only [Bool.not_true, Bool.not_false, Bool.and_true, Bool.and_false, Bool.false_eq_true, if_true,
          if_false] <;> omega

theorem balance_exec (accounted : Accounted s) (gen : Gen) :
    (s.exec w).history.countP (·.takes gen) =
      (s.exec w).history.countP (·.ends gen) + (s.exec w).queue.tasks.countP (·.holds gen) := by
  have new : (s.exec w).queue.tasks.countP (·.holds gen) =
      (s.queue.tasks.map (s.queue.after w)).countP (·.holds gen) := by
    simp only [Ledger.exec, Queue.exec, List.countP_append]
    cases w <;> rfl
  have before := accounted.balance gen
  have rows := balance_rows s.queue.tasks w.ending (s.queue.after w) gen
  rw [new]
  simp only [Ledger.exec, List.countP_append]
  omega

theorem exec (accounted : Accounted s) (fresh : Fresh (.write w) s) : Accounted (s.exec w) where
  numbered := accounted.numbered.exec w
  taken := accounted.taken_exec
  held := accounted.held_exec
  begun := accounted.begun_exec
  spent := accounted.spent_exec fresh
  once := accounted.once_exec fresh
  balance := accounted.balance_exec
  paths := by
    intro id gen path event
    rcases mem_history_exec.mp event with old | ⟨t, -, new⟩
    · exact accounted.paths id gen path old
    · exact ending_of_ended_event new

theorem empty (mayLease : WorkerId → Bool) : Accounted (.empty mayLease) := by
  constructor <;> simp [Ledger.empty, Spent]
  exact ⟨by simp, by simp⟩

/-- A lease that was taken is the row's, or has ended once and is no row's. -/
theorem held_or_ended (accounted : Accounted s) {id : TaskId} {worker : Option WorkerId} {gen : Gen}
    (leased : .leased id worker (some gen) ∈ s.history) :
    (s.history.countP (·.ends gen) = 0 ∧
      ∃ t ∈ s.queue.tasks, t.id = id ∧ t.lease? = some (some gen) ∧ t.leaseOwner = worker) ∨
    (s.history.countP (·.ends gen) = 1 ∧ (∃ path, path ≠ .other ∧ .ended id (some gen) path ∈ s.history) ∧
      ∀ t ∈ s.queue.tasks, t.lease? ≠ some (some gen)) := by
  have taken : 0 < s.history.countP (·.takes gen) :=
    List.countP_pos_iff.mpr ⟨_, leased, by simp [LeaseEvent.takes]⟩
  have once := accounted.once gen
  have balance := accounted.balance gen
  rcases accounted.held id worker gen leased with ⟨path, ended⟩ | ⟨t, member, isRow, holds, owner⟩
  · have ends : 0 < s.history.countP (·.ends gen) :=
      List.countP_pos_iff.mpr ⟨_, ended, by simp [LeaseEvent.ends]⟩
    refine .inr ⟨by omega, ⟨path, accounted.paths _ _ _ ended, ended⟩, fun t member holds => ?_⟩
    have held : 0 < s.queue.tasks.countP (·.holds gen) :=
      List.countP_pos_iff.mpr ⟨t, member, by simp [Task.holds, holds]⟩
    omega
  · have held : 0 < s.queue.tasks.countP (·.holds gen) :=
      List.countP_pos_iff.mpr ⟨t, member, by simp [Task.holds, holds]⟩
    exact .inl ⟨by omega, t, member, isRow, holds, owner⟩

end Accounted

end OmarchyPool.Factory
