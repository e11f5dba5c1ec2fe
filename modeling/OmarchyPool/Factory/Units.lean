/-
# OmarchyPool.Factory.Units -- a host's units are never over-committed

The capacity rule is written twice: `roomOf` and `noRoom`, over the leases a claim read, and the
guard of the lease UPDATE, over the rows it finds.  Over the same leases they agree
(`guard_lease_iff_noRoom`), and the guard alone keeps the rule in every interleaving
(`units_fit`): a task leaves the unit kept for pool jobs free, and a pool job may use it.

The guard's `kept` is chosen by the kind of the candidate the claim read; the row it leases
later is of that kind, because no write changes a row's kind.
-/
import OmarchyPool.Factory.Writes
import OmarchyPool.Lib.Keyed

namespace OmarchyPool.Factory

open Lib

set_option autoImplicit false

/-! ## The sums of the guard, row by row -/

/-- What a row adds to the units of a worker's tasks, or of its pool jobs. -/
def Task.unitsFor (worker : WorkerId) (ofTasks : Bool) (t : Task) : Nat :=
  if t.status == .leased && t.leaseOwner == some worker && t.kind.isTask == ofTasks then t.units.getD 0 else 0

def Queue.unitsFor (q : Queue) (worker : WorkerId) (ofTasks : Bool) : Nat :=
  (q.tasks.map (·.unitsFor worker ofTasks)).sum

theorem committed_eq (q : Queue) (worker : WorkerId) (kept : Nat) :
    q.committed worker kept = q.unitsFor worker true + max kept (q.unitsFor worker false) := by
  simp only [Queue.committed, Queue.leasedBy, List.filter_filter, sum_map_filter, Queue.unitsFor]
  have rows : ∀ t : Task, ∀ ofTasks, t.unitsFor worker ofTasks =
      if (t.kind.isTask == ofTasks) && (t.status == .leased && t.leaseOwner == some worker) then t.units.getD 0
      else 0 := fun t ofTasks => by rw [Task.unitsFor, Bool.and_comm]
  simp only [rows, beq_true, beq_false]

/-- The row a write leases to a worker. -/
def Leases (q : Queue) (w : Write) (worker : WorkerId) (t : Task) (l : LeaseWrite) : Prop :=
  w = .lease l ∧ l.worker = worker ∧ w.guard q t = true

/-- A row adds no more than it did, unless the write leases it to the worker. -/
theorem unitsFor_after {q : Queue} {w : Write} {worker : WorkerId} (ofTasks : Bool) (t : Task) :
    (q.after w t).unitsFor worker ofTasks ≤ t.unitsFor worker ofTasks ∨
      ∃ l, Leases q w worker t l ∧ t.kind.isTask = ofTasks ∧
        (q.after w t).unitsFor worker ofTasks = l.choice.units := by
  by_cases counted : (q.after w t).status = .leased ∧ (q.after w t).leaseOwner = some worker ∧
      (q.after w t).kind.isTask = ofTasks
  swap
  · have zero : (q.after w t).unitsFor worker ofTasks = 0 :=
      if_neg fun holds => counted (by simpa [and_assoc] using holds)
    exact .inl (zero ▸ Nat.zero_le _)
  obtain ⟨leased, owner, ofKind⟩ := counted
  rw [(q.after_sameRow w t).kind] at ofKind
  rcases leased_after leased with ⟨l, rfl, matched⟩ | ⟨-, same⟩
  · rw [Queue.after_of_guard matched] at owner ⊢
    have isWorker : l.worker = worker := by simpa [Write.set] using owner
    exact .inr ⟨l, ⟨rfl, isWorker, matched⟩, ofKind, by simp [Task.unitsFor, Write.set, isWorker, ofKind]⟩
  · left
    rw [same.1]
    exact Nat.le_refl _

theorem unitsFor_exec_eq (q : Queue) (w : Write) (worker : WorkerId) (ofTasks : Bool) :
    (q.exec w).unitsFor worker ofTasks = (q.tasks.map fun t => (q.after w t).unitsFor worker ofTasks).sum := by
  simp only [Queue.unitsFor, Queue.exec, List.map_append, List.sum_append, List.map_map]
  cases w <;> simp [Function.comp_def, Task.inserted, Task.unitsFor]

/-- A lease of a row of one kind adds its units to that kind's sum and nothing to the other. -/
theorem unitsFor_exec {q : Queue} (numbered : Numbered q) {w : Write} {worker : WorkerId} {row : Task} {l : LeaseWrite}
    (inTasks : row ∈ q.tasks) (leases : Leases q w worker row l) (ofTasks : Bool) :
    (q.exec w).unitsFor worker ofTasks ≤
      q.unitsFor worker ofTasks + if row.kind.isTask = ofTasks then l.choice.units else 0 := by
  rw [unitsFor_exec_eq]
  refine sum_le_of_one_row numbered.nodup (k := row.id) fun t member => ?_
  rcases unitsFor_after ofTasks t with fewer | ⟨l', leases', ofKind, is⟩
  · exact fewer.trans (Nat.le_add_right _ _)
  · obtain ⟨rfl, -, matched⟩ := leases
    obtain ⟨same, -, matched'⟩ := leases'
    cases same
    have sameId : t.id = row.id := (Write.guard_lease matched').1.trans (Write.guard_lease matched).1.symm
    obtain rfl := numbered.unique member inTasks sameId
    rw [is, if_pos rfl, if_pos ofKind]
    exact Nat.le_add_left _ _

theorem unitsFor_exec_le {q : Queue} {w : Write} {worker : WorkerId}
    (others : ∀ t ∈ q.tasks, ∀ l, ¬ Leases q w worker t l) (ofTasks : Bool) :
    (q.exec w).unitsFor worker ofTasks ≤ q.unitsFor worker ofTasks := by
  rw [unitsFor_exec_eq]
  refine List.sum_le_sum fun t member => ?_
  rcases unitsFor_after ofTasks t with fewer | ⟨l, leases, -⟩
  · exact fewer
  · exact absurd leases (others t member l)

/-! ## The invariant -/

/-- A worker's units hold its tasks, and beside them its pool jobs or the units kept for them. -/
def Fits (worker : WorkerId) (units : Int) (kept : Nat) (q : Queue) : Prop :=
  (q.unitsFor worker true + max kept (q.unitsFor worker false) : Int) ≤ units

/-- A lease that keeps the rule: it declares these units, and a task leaves what is kept. -/
def Guarded (worker : WorkerId) (units : Int) (kept : Nat) (q : Queue) (w : Write) : Prop :=
  ∀ t ∈ q.tasks, ∀ l, Leases q w worker t l →
    ∃ keeps, l.room = some (keeps, units) ∧ (t.kind.isTask = true → keeps = kept)

theorem Fits.exec {worker : WorkerId} {units : Int} {kept : Nat} {q : Queue} (numbered : Numbered q)
    (fits : Fits worker units kept q) {w : Write} (guarded : Guarded worker units kept q w) :
    Fits worker units kept (q.exec w) := by
  unfold Fits at fits ⊢
  by_cases leased : ∃ row ∈ q.tasks, ∃ l, Leases q w worker row l
  · obtain ⟨row, inTasks, l, leases⟩ := leased
    have tasks := unitsFor_exec numbered inTasks leases true
    have jobs := unitsFor_exec numbered inTasks leases false
    obtain ⟨keeps, isRoom, keepsKept⟩ := guarded row inTasks l leases
    obtain ⟨rfl, rfl, matched⟩ := leases
    have room : (q.committed l.worker keeps : Int) + l.choice.units ≤ units := by
      simp only [Write.guard, Bool.and_eq_true, isRoom, Option.all_some, decide_eq_true_eq] at matched
      exact matched.2
    rw [committed_eq] at room
    push_cast at room
    cases ofKind : row.kind.isTask with
    | true =>
        obtain rfl := keepsKept ofKind
        simp only [ofKind, if_true, Bool.true_eq_false, if_false] at tasks jobs
        omega
    | false =>
        simp only [ofKind, Bool.false_eq_true, if_false, if_true] at tasks jobs
        omega
  · have tasks := unitsFor_exec_le (fun t member l leases => leased ⟨t, member, l, leases⟩) true
    have jobs := unitsFor_exec_le (fun t member l leases => leased ⟨t, member, l, leases⟩) false
    omega

/-- A leased row says whose lease it is and what it holds. -/
def Written (q : Queue) : Prop :=
  ∀ t ∈ q.tasks, t.status = .leased → t.leaseOwner.isSome ∧ t.units.isSome

theorem Written.exec {q : Queue} (written : Written q) (w : Write) : Written (q.exec w) := by
  intro t' member leased
  rcases Queue.mem_exec member with ⟨t, old, rfl⟩ | ⟨task, -, rfl⟩
  swap
  · cases leased
  rcases leased_after leased with ⟨l, rfl, matched⟩ | ⟨was, same⟩
  · rw [Queue.after_of_guard matched]
    exact ⟨rfl, rfl⟩
  · rw [same.1]
    exact written t old was

/-! ## Claims -/

/-- The claims of the worker are a host's, and declare these units and what is kept of them. -/
def Declares (worker : WorkerId) (units : Int) (kept : Nat) : Request → Prop
  | .claim k => k.me.id = worker → k.me.legacy = false ∧ k.me.units = units ∧ k.rules.jobReserved = kept
  | _ => True

def unitsContract (worker : WorkerId) (units : Int) (kept : Nat) : Contract Ledger Event where
  inv := fun s => Numbered s.queue ∧ Written s.queue ∧ Fits worker units kept s.queue
  rely := Flow
  guar := Flow
  meets := Unrestricted

section Claims

variable {worker : WorkerId} {units : Int} {kept : Nat} {s : Ledger}

theorem keeps_units {w : Write} (inv : (unitsContract worker units kept).inv s)
    (guarded : Guarded worker units kept s.queue w) :
    (unitsContract worker units kept).inv (s.exec w) ∧ Flow s (s.exec w) :=
  ⟨⟨inv.1.exec w, inv.2.1.exec w, inv.2.2.exec inv.1 guarded⟩, .exec s w⟩

/-- The rows a claim read are of the kinds it read. -/
def KindsRead (candidates : List Candidate) (s : Ledger) : Prop :=
  ∀ c ∈ candidates, ∃ t ∈ s.queue.tasks, t.id = c.id ∧ t.kind = c.kind

theorem KindsRead.flow {candidates : List Candidate} {s s' : Ledger} (read : KindsRead candidates s)
    (flow : Flow s s') : KindsRead candidates s' := by
  intro c member
  obtain ⟨t, inTasks, sameId, sameKind⟩ := read c member
  obtain ⟨t', inTasks', same, -⟩ := flow t inTasks
  exact ⟨t', inTasks', same.id.trans sameId, same.kind.trans sameKind⟩

theorem kindsRead_candidates (k : Claim) (s : Ledger) :
    KindsRead ((k.rows s.queue).map (k.candidateOf s.queue)) s := by
  intro c member
  obtain ⟨t, inRows, rfl⟩ := List.mem_map.mp member
  refine ⟨t, ?_, rfl, rfl⟩
  rcases List.mem_append.mp inRows with inScope | marked
  · have inFilter := (List.mem_filter.mp inScope).2
    exact List.mem_of_mem_filter (List.contains_iff_mem.mp inFilter)
  · exact List.mem_of_mem_filter marked

/-- The leases a claim tries: of candidates it read. -/
inductive Tries (k : Claim) (candidates : List Candidate) : Event → (Ledger → Ledger) → Prop where
  | lease (try_ : Nat) (c : Choice) (chosen : ∃ cand ∈ candidates, cand.id = c.id) :
      Tries k candidates (.write (.lease (k.leaseWrite candidates try_ c)))
        (Ledger.exec (.lease (k.leaseWrite candidates try_ c)))

theorem guarded_of_tries {k : Claim} (declares : Declares worker units kept (.claim k))
    {candidates : List Candidate} (read : KindsRead candidates s) (numbered : Numbered s.queue) (try_ : Nat)
    {c : Choice} (chosen : ∃ cand ∈ candidates, cand.id = c.id) :
    Guarded worker units kept s.queue (.lease (k.leaseWrite candidates try_ c)) := by
  rintro t member l ⟨same, isWorker, matched⟩
  cases same
  obtain ⟨host, rfl, rfl⟩ := declares isWorker
  simp only [Claim.leaseWrite, host, Bool.false_eq_true, if_false]
  refine ⟨_, rfl, fun isTask => if_pos ?_⟩
  -- The candidate the claim finds under the row's number is of the row's kind.
  obtain ⟨cand, inCandidates, isChoice⟩ := chosen
  obtain ⟨first, found⟩ := Option.isSome_iff_exists.mp
    (List.find?_isSome.mpr ⟨cand, inCandidates, by simpa using isChoice⟩ :
      (candidates.find? (·.id == c.id)).isSome = true)
  have firstId : first.id = c.id := by simpa using List.find?_some found
  obtain ⟨t', member', sameId, sameKind⟩ := read first (List.mem_of_find?_eq_some found)
  obtain rfl := numbered.unique member' member ((sameId.trans firstId).trans (Write.guard_lease matched).1.symm)
  rw [found, Option.any_some, ← sameKind]
  exact isTask

theorem claim_units {k : Claim} (declares : Declares worker units kept (.claim k)) :
    (selectAndLease k).Spec (unitsContract worker units kept) s fun _ _ => True := by
  unfold selectAndLease
  intro s₁ _ inv₁ _
  refine ⟨inv₁, .refl s₁, ?_⟩
  dsimp only [Handler.query, Program.query, Program.bind]
  split
  · trivial
  intro s₂ _ inv₂ _
  refine ⟨inv₂, .refl s₂, ?_⟩
  dsimp only [Handler.query, Program.query, Program.bind]
  split
  · trivial
  intro s₃ _ inv₃ _
  refine ⟨inv₃, .refl s₃, ?_⟩
  dsimp only [Program.bind]
  have read := kindsRead_candidates k s₃
  generalize (k.rows s₃.queue).map (k.candidateOf s₃.queue) = candidates at read ⊢
  have only : (leaseFirst k candidates 0 ((select k.me (k.fleet (s₂.queue.leased.map k.heldOf)) candidates k.now
      k.rules).take leaseTries)).Only (Tries k candidates) :=
    only_leaseFirst k candidates _
      (fun try_ c taken => .lease try_ c (select_mem (List.mem_of_mem_take taken))) 0
  refine (Program.Only.spec_knowing (c := unitsContract worker units kept) (KindsRead candidates)
    (fun _ _ flow read => read.flow flow) (fun _ _ flow => flow) ?_ only read).mono fun _ _ _ => trivial
  intro label write allowed t inv read _
  cases allowed with
  | lease try_ c chosen => exact keeps_units inv (guarded_of_tries declares read inv.1 try_ chosen)

theorem serve_units (b : Brain) (request : Request) (declares : Declares worker units kept request)
    (inv : (unitsContract worker units kept).inv s) :
    (request.serve b).Spec (unitsContract worker units kept) s fun _ _ => True := by
  by_cases isClaim : ∃ k, request = .claim k
  · obtain ⟨k, rfl⟩ := isClaim
    exact Program.Spec.bind ((claim_units declares).mono fun result _ _ => by cases result <;> trivial)
  · have only : (request.serve b).Only fun label write =>
        (label = .read ∧ write = id) ∨ ∃ w : Write, w.Issued b request ∧ write = Ledger.exec w :=
      only_issued (.inl ⟨rfl, rfl⟩) fun w issued => .inr ⟨w, issued, rfl⟩
    refine (Program.Only.spec (c := unitsContract worker units kept) Flow (fun _ _ _ => .trans) .refl
      (fun _ _ flow => flow) (fun _ _ flow => flow) ?_ only inv).mono fun _ _ _ => trivial
    rintro label write (⟨-, rfl⟩ | ⟨w, issued, rfl⟩) t invT _
    · exact ⟨invT, .refl t⟩
    · refine keeps_units invT ?_
      rintro row _ l ⟨rfl, -, -⟩
      exact absurd issued isClaim

end Claims

/-! ## The two readings of the rule -/

/-- Over the same leases, selection sums what the guard sums. -/
theorem sum_heldBy {k : Claim} {q : Queue} (host : k.me.legacy = false) (written : Written q) (ofTasks : Bool) :
    (((heldBy (k.fleet (q.leased.map k.heldOf)) k.me).filter (·.kind.isTask == ofTasks)).map (·.units)).sum =
      (q.unitsFor k.me.id ofTasks : Int) := by
  have rows : ∀ tasks : List Task, (∀ t ∈ tasks, t.status = .leased → t.leaseOwner.isSome ∧ t.units.isSome) →
      ((((((tasks.filter (·.status == .leased)).map k.heldOf).filter (·.byWorker == k.me.id)).filter
        (·.kind.isTask == ofTasks)).map (·.units)).sum =
          (((tasks.map (·.unitsFor k.me.id ofTasks)).sum : Nat) : Int)) := by
    intro tasks written
    induction tasks with
    | nil => rfl
    | cons t rest ih =>
        have here := written t (by simp)
        have others := ih fun u member => written u (by simp [member])
        rw [List.map_cons, List.sum_cons, Nat.cast_add, ← others]
        by_cases leased : t.status = .leased
        · obtain ⟨hasOwner, hasUnits⟩ := here leased
          obtain ⟨owner, isOwner⟩ := Option.isSome_iff_exists.mp hasOwner
          obtain ⟨holds, isUnits⟩ := Option.isSome_iff_exists.mp hasUnits
          by_cases mine : owner = k.me.id <;> by_cases ofKind : t.kind.isTask = ofTasks <;>
            simp [leased, isOwner, isUnits, mine, ofKind, Task.unitsFor, Claim.heldOf]
        · simp [leased, Task.unitsFor]
  rw [heldBy, if_neg (by simp [host])]
  exact rows q.tasks written

theorem noRoom_eq_units_iff {m : Member} (host : m.legacy = false) {held : List Held} {c : Candidate} {units : Nat}
    {disk : Option ℚ} {r : Rules} :
    noRoom m held c units disk r = some .units ↔
      (if c.kind.isTask then (roomOf m held r).task else (roomOf m held r).job) < units := by
  simp only [noRoom, host, Bool.false_eq_true, if_false]
  generalize (if c.kind.isTask then (roomOf m held r).task else (roomOf m held r).job) = room
  by_cases lacks : room < units
  · rw [if_pos lacks]
    exact iff_of_true rfl lacks
  rw [if_neg lacks]
  refine iff_of_false ?_ lacks
  split
  · exact fun other => by cases other
  split
  · exact fun other => by cases other
  split
  · split
    · exact fun other => by cases other
    · split <;> exact fun other => by cases other
  · exact fun other => by cases other

/-- The UPDATE takes a queued row for a host that may lease exactly when selection, over the same
leases, finds its units. -/
theorem guard_lease_iff_noRoom {k : Claim} (host : k.me.legacy = false) {q : Queue} (written : Written q)
    {candidates : List Candidate} {choice : Choice} {c : Candidate}
    (found : candidates.find? (·.id == choice.id) = some c) (try_ : Nat) (disk : Option ℚ) (t : Task) :
    (Write.lease (k.leaseWrite candidates try_ choice)).guard q t = true ↔
      t.id = choice.id ∧ t.status = .queued ∧ (k.onHost = true → q.mayLease k.me.id = true) ∧
        noRoom k.me (heldBy (k.fleet (q.leased.map k.heldOf)) k.me) c choice.units disk k.rules ≠ some .units := by
  have tasks := sum_heldBy host written true
  have jobs := sum_heldBy host written false
  simp only [beq_true, beq_false] at tasks jobs
  have fits : ((q.committed k.me.id (if c.kind.isTask then k.rules.jobReserved else 0) : Int) + choice.units ≤
      k.me.units) ↔
      noRoom k.me (heldBy (k.fleet (q.leased.map k.heldOf)) k.me) c choice.units disk k.rules ≠ some .units := by
    rw [Ne, noRoom_eq_units_iff host, not_lt, committed_eq]
    simp only [roomOf, taskUnits, jobUnits, tasks, jobs]
    push_cast
    split <;> constructor <;> intro <;> omega
  rw [← fits]
  simp only [Write.guard, Claim.leaseWrite, host, Bool.false_eq_true, if_false, found, Option.any_some,
    Option.all_some, Bool.and_eq_true, beq_iff_eq, Bool.or_eq_true, Bool.not_eq_true', decide_eq_true_eq]
  cases k.onHost <;> simp [and_assoc]

/-- For a host whose claims declare these units, at least what is kept for pool jobs: in every
interleaving its leases fit them.  And the guard of the lease and `noRoom` accept the same. -/
theorem units_fit (b : Brain) (mayLease : WorkerId → Bool) (worker : WorkerId) (units : Int) (kept : Nat)
    (enough : (kept : Int) ≤ units) :
    (∀ config : Config Ledger {r // Declares worker units kept r} Event Refusal Unit,
      Reachable (fun r => r.val.serve b) Unrestricted (.empty mayLease) config →
        Written config.store.queue ∧ (config.store.queue.committed worker kept : Int) ≤ units) ∧
    ∀ (k : Claim) (q : Queue) (candidates : List Candidate) (choice : Choice) (c : Candidate) (try_ : Nat)
      (disk : Option ℚ) (t : Task), k.me.legacy = false → Written q →
      candidates.find? (·.id == choice.id) = some c →
        ((Write.lease (k.leaseWrite candidates try_ choice)).guard q t = true ↔
          t.id = choice.id ∧ t.status = .queued ∧ (k.onHost = true → q.mayLease k.me.id = true) ∧
            noRoom k.me (heldBy (k.fleet (q.leased.map k.heldOf)) k.me) c choice.units disk k.rules ≠
              some .units) := by
  constructor
  · intro config reached
    have start : (unitsContract worker units kept).inv (.empty mayLease) := by
      refine ⟨⟨by simp [Ledger.empty], by simp [Ledger.empty]⟩, by simp [Written, Ledger.empty], ?_⟩
      simpa [Fits, Ledger.empty, Queue.unitsFor] using enough
    obtain ⟨⟨-, written, fits⟩, -⟩ := reachable_spec (unitsContract worker units kept) (fun _ _ _ => True)
      Flow.refl (fun _ _ _ => Flow.trans) (fun _ _ flow => flow) start
      (fun request _ inv => serve_units b request.val request.property inv) reached
    refine ⟨written, ?_⟩
    rw [committed_eq]
    exact_mod_cast fits
  · intro k q candidates choice c try_ disk t host written found
    exact guard_lease_iff_noRoom host written found try_ disk t

/-- A host of five units, asked for the builds it may run at once: its claims. -/
def claimOfFive (tag : String) : {r // Declares "a" 5 1 r} :=
  ⟨.claim (claimOf "a" "b" tag), fun _ => ⟨rfl, rfl, rfl⟩⟩

/-- Three builds of two units, and three claims of the host that all read before one leases. -/
def claimsAtOnce : List (Move {r // Declares "a" 5 1 r}) :=
  [.spawn ⟨.enqueue (jobTask .build "p" .x86_64 {}), trivial⟩, .run 0,
   .spawn ⟨.enqueue (jobTask .build "q" .x86_64 {}), trivial⟩, .run 1,
   .spawn ⟨.enqueue (jobTask .build "r" .x86_64 {}), trivial⟩, .run 2,
   .spawn (claimOfFive "g"), .spawn (claimOfFive "h"), .spawn (claimOfFive "i"),
   .run 3, .run 3, .run 3, .run 4, .run 4, .run 4, .run 5, .run 5, .run 5,
   .run 3, .run 4, .run 4, .run 5, .run 5, .run 5]

def servedOfFive (r : {r // Declares "a" 5 1 r}) : Handler Unit := r.val.serve {}

/-- What the three claims leave. -/
def claimedOfFive : Config Ledger {r // Declares "a" 5 1 r} Event Refusal Unit :=
  claimsAtOnce.foldl (Config.move servedOfFive) ⟨.empty fun _ => true, []⟩

/-- Two of the builds fit; the third waits, and `noRoom` says why. -/
theorem units_fit_of_claimsAtOnce :
    Reachable servedOfFive Unrestricted (.empty fun _ => true) claimedOfFive ∧
      (claimedOfFive.store.queue.committed "a" 1 : Int) ≤ 5 ∧ claimedOfFive.store.queue.leased.length = 2 ∧
      ∃ t ∈ claimedOfFive.store.queue.tasks, ∃ choice : Choice, t.status = .queued ∧ choice.units = 2 ∧
        ((Write.lease ((claimOf "a" "b" "j").leaseWrite [(claimOf "a" "b" "j").candidateOf claimedOfFive.store.queue t]
          0 choice)).guard claimedOfFive.store.queue t = true ↔
          t.id = choice.id ∧ t.status = .queued ∧ (true = true → claimedOfFive.store.queue.mayLease "a" = true) ∧
            noRoom (nativeHost "a" 5) (heldBy ((claimOf "a" "b" "j").fleet
                (claimedOfFive.store.queue.leased.map (claimOf "a" "b" "j").heldOf)) (nativeHost "a" 5))
              ((claimOf "a" "b" "j").candidateOf claimedOfFive.store.queue t) choice.units none signedRules ≠
                some .units) := by
  have fit := units_fit {} (fun _ => true) "a" 5 1 (by decide)
  have reached := reachable_moves servedOfFive Unrestricted (.empty fun _ => true) claimsAtOnce (by decide +kernel)
  obtain ⟨written, held⟩ := fit.1 claimedOfFive reached
  have third : ∃ t ∈ claimedOfFive.store.queue.tasks, t.status = .queued := by decide +kernel
  obtain ⟨t, member, queued⟩ := third
  refine ⟨reached, held, by decide +kernel, t, member, ⟨t.id, none, some 1, none, 2, none, false, none⟩, queued, rfl, ?_⟩
  exact fit.2 (claimOf "a" "b" "j") _ _ _ _ 0 none t rfl written (by simp [Claim.candidateOf])

end OmarchyPool.Factory
