/-
# OmarchyPool.Factory.RingLock -- one job at a time on a ring

`ringLock` keeps a job that moves a ring out of the candidates while another holds a lease on
the ring.  It is a condition of the read; the UPDATE that takes the lease does not repeat it.
It compares `to` before `ring`, which for a rollback is the release it goes back to.
Where the row still passes it when the UPDATE runs, and no job it misreads moves the ring, at
most one job moves a ring (`movers_le_one_of_free`).  Two hosts that read before either leases
both move it, and so do a rollback and a render one after the other (`two_movers_of_ringAtOnce`).
-/
import OmarchyPool.Factory.Writes

namespace OmarchyPool.Factory

open Lib

set_option autoImplicit false

/-- The ring a job's token lets it move: a promotion's `to`, else its `ring`.  A rollback's `to` is a release. -/
def Task.ringMoved (t : Task) : String :=
  if t.kind = .promote then t.params.upTo.getD "rc" else t.params.ring.getD "edge"

/-- A leased job of the project that moves a ring; the fast track moves every ring. -/
def Task.moves (ring : String) (t : Task) : Bool :=
  t.status == .leased && t.trust == .project && ringMover t.kind && (t.kind == .security || t.ringMoved == ring)

def Queue.movers (q : Queue) (ring : String) : List Task := q.tasks.filter (·.moves ring)

/-- What the lock compares is not the ring the job moves: a rollback, or a job that leaves its ring out. -/
def Task.misread (t : Task) : Bool := t.params.target != some t.ringMoved

/-- No leased mover of the row's ring where the lock misreads one of the two. -/
def apartWhereMisread (q : Queue) (t : Task) : Bool :=
  !(ringMover t.kind && q.tasks.any fun l => l.status == .leased && l.trust == .project && ringMover l.kind &&
    l.id != t.id && (t.misread || l.misread) && l.ringMoved == t.ringMoved)

/-- The rows a lease takes pass a condition in the table the UPDATE finds. -/
def AtLease (free : Queue → Task → Bool) : Event → Ledger → Prop
  | .write (.lease l), s => ∀ t ∈ s.queue.tasks, (Write.lease l).guard s.queue t = true → free s.queue t = true
  | _, _ => True

instance (free : Queue → Task → Bool) (label : Event) (s : Ledger) : Decidable (AtLease free label s) := by
  apply Event.casesOn (motive := fun label => Decidable (AtLease free label s)) label <;> intros
  case write w =>
    apply Write.casesOn (motive := fun w => Decidable (AtLease free (.write w) s)) w <;> intros <;>
      (dsimp only [AtLease]; infer_instance)
  all_goals (dsimp only [AtLease]; infer_instance)

/-- The ring is free of the leased movers the lock sees, and of those it misreads. -/
def ringFree (q : Queue) (t : Task) : Bool := ringLock q t && apartWhereMisread q t

theorem Task.moves_iff {ring : String} {t : Task} :
    t.moves ring = true ↔ t.status = .leased ∧ t.trust = .project ∧ ringMover t.kind = true ∧
      (t.kind = .security ∨ t.ringMoved = ring) := by
  simp [Task.moves, and_assoc]

theorem Task.SameLease.moves {ring : String} {t t' : Task} (same : t.SameLease t') :
    t'.moves ring = t.moves ring := by
  rw [same.1]
  rfl

/-- A row whose ring is free shares no ring with a leased mover. -/
theorem apart_of_ringFree {q : Queue} {t l : Task} {ring : String} (free : ringFree q t = true)
    (member : l ∈ q.tasks) (moving : l.moves ring = true) (mover : ringMover t.kind = true)
    (targets : t.kind = .security ∨ t.ringMoved = ring) : l.id = t.id := by
  by_contra other
  obtain ⟨leased, project, moverL, targetsL⟩ := Task.moves_iff.mp moving
  obtain ⟨locked, apart⟩ := (Bool.and_eq_true _ _).mp free
  simp only [ringLock, mover, Bool.true_and, Bool.not_eq_true', List.any_eq_false] at locked
  simp only [apartWhereMisread, mover, Bool.true_and, Bool.not_eq_true', List.any_eq_false] at apart
  have unlocked := locked l member
  have misread := apart l member
  simp only [leased, project, moverL, beq_self_eq_true, Bool.true_and, bne_iff_ne, ne_eq, other,
    not_false_eq_true, Bool.and_eq_true, Bool.or_eq_true, beq_iff_eq, true_and, not_and, not_or] at unlocked misread
  obtain ⟨⟨plainL, plain⟩, differ⟩ := unlocked
  have onRing := targets.resolve_left plain
  have onRingL := targetsL.resolve_left plainL
  -- neither is the fast track: the two move one ring, and the lock reads both or misreads one
  by_cases reads : t.misread = true ∨ l.misread = true
  · exact misread reads (onRingL.trans onRing.symm)
  · obtain ⟨read, readL⟩ := not_or.mp reads
    have target : t.params.target = some t.ringMoved := by simpa [Task.misread] using read
    have targetL : l.params.target = some l.ringMoved := by simpa [Task.misread] using readL
    exact differ (by rw [targetL]; rfl) (by rw [target, targetL, onRing, onRingL])

/-- The invariant: rows are numbered, and movers of one ring are one row. -/
structure OneMover (q : Queue) : Prop where
  numbered : Numbered q
  one : ∀ ring, ∀ t ∈ q.tasks, ∀ t' ∈ q.tasks, t.moves ring = true → t'.moves ring = true → t.id = t'.id

/-- A row that moves a ring after a write moved it before, or is the one this write leases. -/
theorem moves_after {s : Ledger} {w : Write} (free : AtLease ringFree (.write w) s) {t : Task} (member : t ∈ s.queue.tasks)
    {ring : String} (moving : (s.queue.after w t).moves ring = true) :
    t.moves ring = true ∨ (∃ l, w = .lease l ∧ t.id = l.choice.id) ∧
      ∀ l ∈ s.queue.tasks, l.moves ring = true → l.id = t.id := by
  obtain ⟨leased, project, mover, targets⟩ := Task.moves_iff.mp moving
  rcases leased_after leased with ⟨l, rfl, matched⟩ | ⟨-, same⟩
  · refine .inr ⟨⟨l, rfl, (Write.guard_lease matched).1⟩, fun other inTasks moves => ?_⟩
    rw [Queue.after_of_guard matched] at mover targets
    exact apart_of_ringFree (free t member matched) inTasks moves mover targets
  · exact .inl (same.moves ▸ moving)

theorem Task.inserted_moves (task : Task) (id : TaskId) (ring : String) : (task.inserted id).moves ring = false :=
  rfl

theorem OneMover.exec {s : Ledger} (invariant : OneMover s.queue) {w : Write} (free : AtLease ringFree (.write w) s) :
    OneMover (s.exec w).queue := by
  refine ⟨invariant.numbered.exec w, ?_⟩
  intro ring first inFirst second inSecond movesFirst movesSecond
  rcases Queue.mem_exec inFirst with ⟨t, member, rfl⟩ | ⟨task, -, rfl⟩
  swap
  · rw [Task.inserted_moves] at movesFirst
    cases movesFirst
  rcases Queue.mem_exec inSecond with ⟨t', member', rfl⟩ | ⟨task, -, rfl⟩
  swap
  · rw [Task.inserted_moves] at movesSecond
    cases movesSecond
  rw [(s.queue.after_sameRow w t).id, (s.queue.after_sameRow w t').id]
  rcases moves_after free member movesFirst with before | ⟨⟨l, rfl, isFirst⟩, alone⟩
  · rcases moves_after free member' movesSecond with before' | ⟨-, alone'⟩
    · exact invariant.one ring t member t' member' before before'
    · exact alone' t member before
  · rcases moves_after free member' movesSecond with before' | ⟨⟨l', same, isSecond⟩, -⟩
    · exact (alone t' member' before').symm
    · cases same
      rw [isFirst, isSecond]

theorem OneMover.le_one {q : Queue} (invariant : OneMover q) (ring : String) : (q.movers ring).length ≤ 1 := by
  have nodup : (q.movers ring).Nodup := (invariant.numbered.nodup.of_map _).filter _
  have same : ∀ t ∈ q.movers ring, ∀ t' ∈ q.movers ring, t = t' := by
    intro t inMovers t' inMovers'
    obtain ⟨member, moving⟩ := List.mem_filter.mp inMovers
    obtain ⟨member', moving'⟩ := List.mem_filter.mp inMovers'
    exact invariant.numbered.unique member member' (invariant.one ring t member t' member' moving moving')
  match movers : q.movers ring, nodup, same with
  | [], _, _ => simp
  | [_], _, _ => simp
  | t :: t' :: rest, nodup, same =>
      exact absurd (same t (by simp) t' (by simp)) (by simp at nodup; tauto)

/-- In every interleaving whose leases find their row's ring free, at most one job moves a ring. -/
theorem movers_le_one_of_free (b : Brain) (mayLease : WorkerId → Bool)
    {config : Config Ledger Request Event Refusal Unit}
    (reached : Reachable (Request.serve b) (AtLease ringFree) (.empty mayLease) config) (ring : String) :
    (config.store.queue.movers ring).length ≤ 1 := by
  have invariant : OneMover config.store.queue := by
    refine reachable_writes (fun s => OneMover s.queue) ?_ ⟨⟨by simp [Ledger.empty], ?_⟩, ?_⟩ reached
    · exact fun w s kept free => kept.exec free
    · simp [Ledger.empty]
    · simp [Ledger.empty]
  exact invariant.le_one ring

/-! ## Two hosts at once, and a rollback -/

/-- A job on a ring, a render of rc, and two hosts that claim. -/
def ringQueued (first : Task) : List (Move Request) :=
  [.spawn (.enqueue first), .run 0,
   .spawn (.enqueue (jobTask .render "render" .x86_64 { ring := some "rc" })), .run 1,
   .spawn (.claim (claimOf "a" "b" "ga")), .spawn (.claim (claimOf "b" "a" "gb"))]

/-- A promotion into rc. -/
def intoRc : Task := jobTask .promote "promote" .x86_64 { from_ := some "edge", upTo := some "rc" }

/-- A rollback of rc to its release 41. -/
def backTo41 : Task := jobTask .rollback "rollback" .x86_64 { ring := some "rc", upTo := some "41" }

/-- One claim after the other: the second finds the render locked out. -/
def ringInTurn (first : Task) : List (Move Request) :=
  ringQueued first ++ [.run 2, .run 2, .run 2, .run 2, .run 3, .run 3, .run 3, .run 3]

theorem movers_le_one_of_ringInTurn :
    ∃ config, Reachable (Request.serve {}) (AtLease ringFree) (.empty fun _ => true) config ∧
      (config.store.queue.movers "rc").length ≤ 1 ∧ config.store.queue.leased.length = 1 :=
  have reached := reachable_moves (Request.serve {}) (AtLease ringFree) (.empty fun _ => true) (ringInTurn intoRc)
    (by decide)
  ⟨_, reached, movers_le_one_of_free {} _ reached "rc", by decide⟩

/-- Both read before either leases: the second, whose first choice is gone, takes the next. -/
def ringAtOnce : List (Move Request) :=
  ringQueued intoRc ++ [.run 2, .run 2, .run 2, .run 3, .run 3, .run 3, .run 2, .run 3, .run 3]

/-- Two movers of rc: after claims at once; and after a claim and then another, each of a row that passes the lock,
where the first leases a rollback. -/
theorem two_movers_of_ringAtOnce :
    (∃ config, Reachable (Request.serve {}) Unrestricted (.empty fun _ => true) config ∧
      (config.store.queue.movers "rc").length = 2) ∧
    ∃ config, Reachable (Request.serve {}) (AtLease ringLock) (.empty fun _ => true) config ∧
      (config.store.queue.movers "rc").length = 2 :=
  ⟨⟨_, reachable_moves _ _ _ ringAtOnce (by decide), by decide⟩,
    ⟨_, reachable_moves _ _ _ (ringInTurn backTo41) (by decide), by decide⟩⟩

end OmarchyPool.Factory
