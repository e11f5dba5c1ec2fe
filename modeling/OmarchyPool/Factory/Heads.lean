/-
# OmarchyPool.Factory.Heads -- the bounded reads of a claim

A claim does not read the queue: it reads heads of it, fifty rows each.  Every statement repeats the claim's
scope and the claimer's room (`Claim.fits`), so that a head of tasks the claimer cannot take hides none it
can.  What the statements leave to `select` can still hold a whole head back: the reservation, the wait of an
emulated lane for native capacity, the emulated share, the second opinion's host, the lanes of a ring job.

`fits_iff`: the room of the statements is `noRoom`'s and the per-owner cap's.  `covered`: every task `select`
would take matches a head, but for a health job an emulated lane marked.  `head_hides_iff` says exactly when
the heads bring something to take whenever the queue holds something to take.
-/
import Mathlib.Algebra.Order.Field.Rat
import Mathlib.Tactic.Linarith
import OmarchyPool.Factory.Leases

namespace OmarchyPool.Factory

set_option autoImplicit false

/-! ## Reads -/

def headLimit : Nat := 50
def ownersLimit : Nat := 50

/-- `ORDER BY priority, id`. -/
def inOrder (tasks : List Task) : List Task :=
  tasks.insertionSort fun a b => a.priority < b.priority ∨ a.priority = b.priority ∧ a.id ≤ b.id

/-- `HOST_ANY_ARCH_KINDS`: every kind but those scheduled by lane or by a helper's architecture. -/
def TaskKind.hostAnyArch (kind : TaskKind) : Bool := !kind.byLane && !kind.helper

/-- The claimer's room, as it is written into the statements. -/
structure ReadRoom where
  task : Int
  job : Int
  slotFree : Bool
  diskFree : Option ℚ
  largest : Nat
  capped : List String

/-- One statement: its filter over the queued rows, and its limit. -/
structure Head where
  keeps : Task → Bool
  limit : Nat := headLimit

namespace Queue

def queued (q : Queue) (keeps : Task → Bool) : List Task :=
  q.tasks.filter fun t => t.status == .queued && keeps t

end Queue

/-- The rows the statement gives. -/
def Head.rows (head : Head) (q : Queue) : List Task := (inOrder (q.queued head.keeps)).take head.limit

namespace Claim

variable (k : Claim) (q : Queue)

def fleetNow : Fleet := k.fleet (q.leased.map k.heldOf)

def candidate (t : Task) : Candidate := k.candidateOf q t

def readRoom : ReadRoom :=
  let fleet := k.fleetNow q
  let held := heldBy fleet k.me
  let room := roomOf k.me held k.rules
  let within := fun n : Int => k.me.offer.elim n (min n)
  let owners := (fleet.leases.filter fun l => l.kind == .build && l.trust == .community).filterMap (·.owner)
  { task := if k.me.legacy then k.rules.buildPerSize else within room.task
    job := if k.me.legacy then k.rules.buildPerSize else within room.job
    slotFree := k.me.legacy || (held.filter (·.model)).length < k.me.agentSlots
    diskFree := k.me.disk.map fun d => min d.work d.engine -
      ((held.filter (·.kind == .build)).map (·.diskGb)).sum - k.rules.floorGb
    largest := largestSize fleet k.now k.rules
    capped := (owners.filter fun owner => owner ≠ "" && (ownerCap fleet k.now k.rules).any
      (· ≤ ownersLeased fleet.leases owner)).eraseDups }

/-- `MIN(largest, max, MAX(1, asked))`. -/
def sizeInSql (c : Candidate) : Nat :=
  min (k.readRoom q).largest
    (min (if c.trust = .community then k.rules.communityMaxSize else k.rules.maxSize) (max 1 (c.size.getD 1)))

def unitsInSql (c : Candidate) : Nat :=
  match c.kind with
  | .build => k.rules.buildPerSize * k.sizeInSql q c
  | .trial => k.rules.trial
  | .audit => k.rules.audit
  | _ => k.rules.job

/-- `fitsOf`: units, an agent slot, a host's disk, the per-owner cap. -/
def fits (t : Task) : Bool :=
  let c := k.candidate q t
  let room := k.readRoom q
  ((k.unitsInSql q c : Int) ≤ if t.kind.isTask then room.task else room.job) &&
    (room.slotFree || !t.model) &&
    (k.me.legacy || t.kind != .build || room.diskFree.any fun free =>
      c.diskGb.getD (k.rules.gbPerSize * k.sizeInSql q c) ≤ free) &&
    !(t.kind == .build && t.trust == .community && t.owner.any room.capped.contains)

def emulatedOnly (a : Arch) : Bool := !k.me.lanes.any fun l => l.arch == a && l.mode == .native

def on4k (a : Arch) : Bool :=
  k.me.lanes.any fun l => l.arch == a && l.mode == .emulated && l.page16k == some false

/-- What an emulated lane of the architecture never takes is left out of its head. -/
def notRefused (a : Arch) (t : Task) : Bool := if k.on4k a then !t.params.refused4k else !t.params.needsNative

/-- Of the builds and trials, the project's own recipes. -/
def projectsOwn (t : Task) : Bool :=
  !t.kind.byLane || t.kind == .build && t.trust == .project && t.params.review.isNone

/-- A sandboxed host's emulated lane. -/
def outsideSandbox (a : Arch) : Bool := !k.me.legacy && k.me.sandbox && k.emulatedOnly a

/-- An audit of the project's copy that the claimer's model cannot count as another. -/
def sameModelAudit (t : Task) : Bool :=
  t.kind == .audit && (t.params.task.bind q.task?).any fun au => au.isCopy &&
    (!said k.me.model || (au.params.builtWith.or (au.leaseOwner.bind k.agentOf)).all fun with_ =>
      with_ == "" || some with_ == k.me.model)

def takesAudits : Bool := k.me.kinds.contains .audit

/-- The audits read apart are left out of the head that holds the others. -/
def otherAudits (t : Task) : Bool := !(k.takesAudits && k.sameModelAudit q t)

def laneHead (a : Arch) : Head where
  keeps t := t.arch == a && !t.kind.hostAnyArch && k.inScope q t && k.fits q t &&
    (!k.emulatedOnly a || k.notRefused a t) && (!k.outsideSandbox a || projectsOwn t)

def neutralHead : Head where
  keeps t := t.kind.hostAnyArch && k.inScope q t && k.fits q t && k.otherAudits q t

/-- A legacy registration's one lane: its architecture, or a kind any runs. -/
def legacyHead (a : Arch) : Head where
  keeps t := (t.arch == a || t.kind ∈ k.rules.legacyAnyArch) && k.inScope q t && k.fits q t && k.otherAudits q t

def sameModelHead (a : Arch) : Head where
  keeps t := t.kind == .audit && (!k.me.legacy || t.arch == a || t.kind ∈ k.rules.legacyAnyArch) &&
    k.inScope q t && k.fits q t && k.sameModelAudit q t

def archs (a : Arch) : List Arch := if k.me.legacy then [a] else (k.me.lanes.map (·.arch)).eraseDups

/-- The heads of a claim; `a` is the registration's architecture. -/
def heads (a : Arch) : List Head :=
  (if k.me.legacy then [k.legacyHead q a] else (k.archs a).map (k.laneHead q) ++ [k.neutralHead q]) ++
    if k.takesAudits then [k.sameModelHead q a] else []

/-- The owners of the queue's community tasks, the first fifty in their order. -/
def ownersInOrder : List String :=
  ((((q.tasks.filter fun t => t.status == .queued && t.trust == .community).filterMap (·.owner)).eraseDups).insertionSort
    (· ≤ ·)).take ownersLimit

/-- `OWNER_HEADS_SQL`: each contributor's first build of the architecture, but for those at their cap. -/
def ownerHeads (a : Arch) : List Task :=
  if k.me.kinds.contains .build && !(k.me.legacy && k.me.scope == .project) && !k.outsideSandbox a then
    ((ownersInOrder q).filter (!(k.readRoom q).capped.contains ·)).flatMap fun owner =>
      Head.rows ⟨fun t => t.trust == .community && t.owner == some owner && t.arch == a && t.kind == .build &&
        k.inScope q t && k.fits q t && (k.me.legacy || !k.emulatedOnly a || k.notRefused a t), 1⟩ q
  else []

def nativeArch (a : Arch) : Arch := (k.me.lanes.find? (·.mode == .native)).elim a (·.arch)

/-- The first native task for the host, whatever its size. -/
def firstNative (a : Arch) : List Task :=
  if !k.me.legacy && k.me.lanes.any (·.mode == .emulated) then
    Head.rows ⟨fun t => t.arch == k.nativeArch a && t.kind.byLane && k.inScope q t &&
      !(t.kind == .build && t.trust == .community && t.owner.any (k.readRoom q).capped.contains), 1⟩ q
  else []

/-- The task the host reserves for, wherever it stands. -/
def reservedTask : List Task :=
  if k.me.legacy then []
  else q.queued fun t => k.me.reserving.any (·.task == t.id) && k.inScope q t

/-- What a claim reads. -/
def read (a : Arch) : List Task :=
  ((k.heads q a).flatMap (·.rows q) ++ (k.archs a).flatMap (k.ownerHeads q) ++ k.firstNative q a ++
    k.reservedTask q).eraseDups

/-- Every queued task in the claim's scope. -/
def whole : List Task := q.queued (k.inScope q)

def chooses (tasks : List Task) : List Choice :=
  select k.me (k.fleetNow q) (tasks.map (k.candidate q)) k.now k.rules

/-! ## The room of the statements -/

section Candidate

variable (t : Task)

@[simp] theorem candidate_id : (k.candidate q t).id = t.id := rfl
@[simp] theorem candidate_kind : (k.candidate q t).kind = t.kind := rfl
@[simp] theorem candidate_arch : (k.candidate q t).arch = t.arch := rfl
@[simp] theorem candidate_trust : (k.candidate q t).trust = t.trust := rfl
@[simp] theorem candidate_owner : (k.candidate q t).owner = t.owner := rfl
@[simp] theorem candidate_model : (k.candidate q t).model = t.model := rfl
@[simp] theorem candidate_pinnedTo : (k.candidate q t).pinnedTo = t.pinnedTo := rfl
@[simp] theorem candidate_needsNative : (k.candidate q t).needsNative = t.params.needsNative := rfl
@[simp] theorem candidate_refused4k : (k.candidate q t).refused4k = t.params.refused4k := rfl

end Candidate

section Room

variable {k : Claim} {q : Queue} {t : Task} {c : Candidate}

theorem size_of_build (build : c.kind = .build) :
    (sizeOf c (largestSize (k.fleetNow q) k.now k.rules) k.rules).map (·.1) = some (k.sizeInSql q c) := by
  simp only [sizeOf, if_pos build, Option.map_some, sizeInSql, readRoom, Option.some.injEq]
  rw [Nat.min_comm, Nat.min_comm (max _ _), Nat.max_comm]

theorem unitsInSql_eq : k.unitsInSql q c =
    unitsOf c.kind ((sizeOf c (largestSize (k.fleetNow q) k.now k.rules) k.rules).map (·.1)) k.rules := by
  unfold unitsInSql unitsOf
  cases kind : c.kind with
  | build => simp only [size_of_build kind, Option.getD_some]
  | _ => rfl

theorem one_le_ownerCap {fleet : Fleet} {now : Int} {r : Rules} {n : Nat} (is : ownerCap fleet now r = some n) :
    1 ≤ n := by
  unfold ownerCap at is
  split at is
  · cases is
  · cases is
    exact Nat.le_max_left _ _

/-- The owners the statements leave out are those at their cap. -/
theorem mem_capped {owner : String} :
    owner ∈ (k.readRoom q).capped ↔ owner ≠ "" ∧ (ownerCap (k.fleetNow q) k.now k.rules).any
      (· ≤ ownersLeased (k.fleetNow q).leases owner) = true := by
  simp only [readRoom, List.mem_eraseDups, List.mem_filter, Bool.and_eq_true, decide_eq_true_eq]
  constructor
  · exact fun ⟨_, holds⟩ => holds
  · intro ⟨named, full⟩
    refine ⟨?_, named, full⟩
    obtain ⟨cap, isCap, below⟩ : ∃ cap, ownerCap (k.fleetNow q) k.now k.rules = some cap ∧
        cap ≤ ownersLeased (k.fleetNow q).leases owner := by
      cases isCap : ownerCap (k.fleetNow q) k.now k.rules with
      | none =>
          rw [isCap] at full
          cases full
      | some cap => exact ⟨cap, rfl, by simpa [isCap] using full⟩
    have some_ : 0 < ownersLeased (k.fleetNow q).leases owner := by
      have := one_le_ownerCap isCap
      omega
    obtain ⟨l, member, leased⟩ := List.countP_pos_iff.mp some_
    simp only [Bool.and_eq_true, beq_iff_eq] at leased
    exact List.mem_filterMap.mpr ⟨l, List.mem_filter.mpr ⟨member, by simp [leased.1]⟩, leased.2⟩

theorem capped_eq :
    (t.kind == .build && t.trust == .community && t.owner.any (k.readRoom q).capped.contains) =
      (((cappedOwner (k.candidate q t)).map (ownersLeased (k.fleetNow q).leases)).any fun n =>
        (ownerCap (k.fleetNow q) k.now k.rules).any (· ≤ n)) := by
  unfold cappedOwner
  rw [candidate_kind, candidate_trust, candidate_owner]
  by_cases community : t.kind = .build ∧ t.trust = .community
  · rw [if_pos community]
    cases isOwner : t.owner with
    | none => simp
    | some name =>
        have isCapped := @mem_capped k q name
        by_cases named : name = ""
        · have notIn : name ∉ (k.readRoom q).capped := fun member => (isCapped.mp member).1 named
          subst named
          simp [notIn, Option.filter_some]
        · rw [Bool.eq_iff_iff]
          simp only [community.1, community.2, beq_self_eq_true, Bool.true_and, Option.any_some,
            List.contains_eq_mem, decide_eq_true_eq, isCapped, Option.filter_some, named, ne_eq, not_false_eq_true,
            if_true, Option.map_some, true_and, decide_true]
  · rw [if_neg community]
    simp only [not_and] at community
    by_cases build : t.kind = .build
    · simp [community build]
    · simp [build]

/-- The statements' room is `noRoom`'s, and the per-owner cap's. -/
theorem fits_iff : k.fits q t = true ↔
    noRoom k.me (heldBy (k.fleetNow q) k.me) (k.candidate q t)
      (unitsOf (k.candidate q t).kind
        ((sizeOf (k.candidate q t) (largestSize (k.fleetNow q) k.now k.rules) k.rules).map (·.1)) k.rules)
      (diskOf (k.candidate q t)
        ((sizeOf (k.candidate q t) (largestSize (k.fleetNow q) k.now k.rules) k.rules).map (·.1)) k.rules)
      k.rules = none ∧
    (((cappedOwner (k.candidate q t)).map (ownersLeased (k.fleetNow q).leases)).any fun n =>
      (ownerCap (k.fleetNow q) k.now k.rules).any (· ≤ n)) = false := by
  rw [← capped_eq]
  simp only [fits, Bool.and_eq_true, decide_eq_true_eq, Bool.not_eq_true', ← unitsInSql_eq]
  refine and_congr_left fun _ => ?_
  cases legacy : k.me.legacy with
  | true => simp [readRoom, noRoom, legacy]
  | false =>
      rw [noRoom_eq_none_iff legacy, candidate_kind, candidate_model]
      have units : ((k.unitsInSql q (k.candidate q t) : Int) ≤
          if t.kind.isTask then (k.readRoom q).task else (k.readRoom q).job) ↔
          (k.unitsInSql q (k.candidate q t) : Int) ≤ (if t.kind.isTask
            then (roomOf k.me (heldBy (k.fleetNow q) k.me) k.rules).task
            else (roomOf k.me (heldBy (k.fleetNow q) k.me) k.rules).job) ∧
          (k.me.offer.all fun offer => (k.unitsInSql q (k.candidate q t) : Int) ≤ offer) = true := by
        simp only [readRoom, legacy, Bool.false_eq_true, if_false]
        cases k.me.offer with
        | none => simp
        | some offer => cases t.kind.isTask <;> simp
      have slot : ((k.readRoom q).slotFree || !t.model) = true ↔ (t.model = true →
          ((heldBy (k.fleetNow q) k.me).filter (·.model)).length < k.me.agentSlots) := by
        cases t.model <;> simp [readRoom, legacy]
      rw [units, slot, and_assoc, and_assoc]
      refine and_congr_right fun _ => and_congr_right fun _ => and_congr_right fun _ => ?_
      by_cases build : t.kind = .build
      · have size := @size_of_build k q (k.candidate q t) build
        simp only [build, bne_self_eq_false, Bool.or_false, Bool.false_or, forall_const, diskOf, candidate_kind, if_true,
          size, Option.getD_some, readRoom]
        cases k.me.disk with
        | none => simp
        | some d => simp [le_sub_iff_add_le]
      · simp [build]

end Room

/-! ## What is left to selection -/

/-- The rules of `select` that no statement repeats, for one task on the lane it would run on. -/
structure Left (k : Claim) (q : Queue) (cap : Int) (t : Task) (mode : Option Mode) (byLane : Bool) : Prop where
  requester : requesterHost k.me (k.candidate q t) = false
  model : (t.kind == .audit && needsOtherModel (k.fleetNow q) (k.candidate q t) k.now &&
    !anotherModel k.me (k.candidate q t)) = false
  elsewhere : (t.kind == .audit && besideBuilder k.me (k.candidate q t) &&
    decide (k.now - t.createdAt < elsewhereMs) &&
    auditElsewhere (k.fleetNow q) (k.candidate q t) k.now k.rules k.me.id) = false
  lane : laneFor k.me (k.candidate q t) k.rules = some (mode, byLane)
  refuses : (byLane && mode == some .emulated && emulationRefuses k.me (k.candidate q t)) = false
  waits : (byLane && mode == some .emulated &&
    decide (k.now - t.createdAt < thresholdMs (k.candidate q t).nativeMs) &&
    nativeCapacity (k.fleetNow q) (k.candidate q t) k.now k.rules k.me.id) = false
  share : (byLane && mode == some .emulated && !k.me.legacy && decide (0 < emulatedHeldOf k.me (k.fleetNow q)) &&
    decide (emulatedHeldOf k.me (k.fleetNow q) + k.unitsInSql q (k.candidate q t) > cap)) = false

/-- The candidates of a list of tasks that the claimer's reservation lets it look at. -/
def pool (k : Claim) (q : Queue) (tasks : List Task) : List Candidate :=
  poolOf k.me (k.fleetNow q) (tasks.map (k.candidate q)) k.now k.rules

/-- Nothing the statements leave to selection holds the task back, among these tasks. -/
def Free (k : Claim) (q : Queue) (tasks : List Task) (t : Task) : Prop :=
  k.candidate q t ∈ k.pool q tasks ∧
    ∃ mode byLane, Left k q (emulatedCapOf k.me (k.pool q tasks) k.rules) t mode byLane

/-- A claimer as the claim makes it: awake; a host of every trust, or a legacy registration of one lane. -/
structure Made (k : Claim) (a : Arch) : Prop where
  awake : k.me.asleep = false
  host : k.me.legacy = false → k.me.scope = .host
  legacy : k.me.legacy = true → k.me.scope ≠ .host ∧ ∃ mode, k.me.lanes = [⟨a, mode, none⟩]

section Left

variable {k : Claim} {q : Queue} {a : Arch} (made : k.Made a) {t : Task}

include made in
/-- What is in scope is taken. -/
theorem takes_of_inScope (inScope : k.inScope q t = true) : takes k.me (k.candidate q t) = true := by
  simp only [Claim.inScope, Bool.and_eq_true, Bool.not_eq_true', Bool.or_eq_true] at inScope
  obtain ⟨⟨⟨⟨⟨⟨⟨kinds, pin⟩, probe⟩, -⟩, -⟩, -⟩, project⟩, community⟩ := inScope
  simp only [takes, candidate_kind, candidate_trust, candidate_model, candidate_pinnedTo, kinds, pin, Bool.true_and, Bool.and_eq_true, Bool.or_eq_true,
    Bool.not_eq_true']
  refine ⟨⟨probe.symm, ?_⟩, ?_⟩
  · cases legacy : k.me.legacy with
    | false => simp [made.host legacy]
    | true =>
        rw [legacy] at project
        cases isTrust : t.trust <;> simp_all
  · cases legacy : k.me.legacy with
    | false => simp [made.host legacy]
    | true =>
        rw [legacy] at community
        cases isScope : k.me.scope <;> simp_all

include made in
theorem passes_iff (inScope : k.inScope q t = true) {cap : Int} {mode : Option Mode} {byLane : Bool} :
    Passes k.me (k.fleetNow q) cap k.now k.rules (k.candidate q t) mode byLane ↔
      k.fits q t = true ∧ Left k q cap t mode byLane := by
  rw [fits_iff]
  constructor
  · intro p
    refine ⟨⟨p.room, p.owner⟩, ⟨p.requester, p.model, p.elsewhere, p.lane, p.refuses, p.waits, ?_⟩⟩
    rw [unitsInSql_eq]
    exact p.share
  · rintro ⟨⟨room, owner⟩, left⟩
    refine ⟨takes_of_inScope made inScope, left.requester, left.model, left.elsewhere, left.lane, room,
      left.refuses, left.waits, ?_, owner⟩
    rw [← unitsInSql_eq]
    exact left.share

include made in
/-- Of tasks in scope something is chosen when one fits and is free. -/
theorem chooses_iff {tasks : List Task} (inScope : ∀ t ∈ tasks, k.inScope q t = true) :
    k.chooses q tasks ≠ [] ↔ ∃ t ∈ tasks, k.fits q t = true ∧ k.Free q tasks t := by
  unfold chooses
  rw [select_ne_nil_iff made.awake]
  constructor
  · rintro ⟨c, inPool, mode, byLane, passes⟩
    obtain ⟨t, member, rfl⟩ := List.mem_map.mp (poolOf_subset inPool)
    obtain ⟨fits, left⟩ := (passes_iff made (inScope t member)).mp passes
    exact ⟨t, member, fits, inPool, mode, byLane, left⟩
  · rintro ⟨t, member, fits, inPool, mode, byLane, left⟩
    exact ⟨_, inPool, mode, byLane, (passes_iff made (inScope t member)).mpr ⟨fits, left⟩⟩

end Left

/-! ## What is read -/

section Read

variable {k : Claim} {q : Queue} {a : Arch} {t : Task}

theorem mem_queued {keeps : Task → Bool} : t ∈ q.queued keeps ↔ t ∈ q.tasks ∧ t.status = .queued ∧ keeps t = true := by
  simp [Queue.queued]

theorem mem_of_rows {head : Head} (member : t ∈ head.rows q) : t ∈ q.queued head.keeps :=
  (List.mem_insertionSort _).mp (List.mem_of_mem_take member)

/-- A head gives the rows it keeps, in scope. -/
theorem inScope_of_head {head : Head} (isHead : head ∈ k.heads q a) (kept : head.keeps t = true) :
    k.inScope q t = true ∧ k.fits q t = true := by
  unfold heads at isHead
  rcases List.mem_append.mp isHead with first | audits
  · split at first
    · obtain rfl := List.mem_singleton.mp first
      simp only [legacyHead, Bool.and_eq_true] at kept
      exact ⟨kept.1.1.2, kept.1.2⟩
    · rcases List.mem_append.mp first with lane | neutral
      · obtain ⟨b, -, rfl⟩ := List.mem_map.mp lane
        simp only [laneHead, Bool.and_eq_true] at kept
        exact ⟨kept.1.1.1.2, kept.1.1.2⟩
      · obtain rfl := List.mem_singleton.mp neutral
        simp only [neutralHead, Bool.and_eq_true] at kept
        exact ⟨kept.1.1.2, kept.1.2⟩
  · split at audits
    · obtain rfl := List.mem_singleton.mp audits
      simp only [sameModelHead, Bool.and_eq_true] at kept
      exact ⟨kept.1.1.2, kept.1.2⟩
    · cases audits

/-- Every row read is a queued one in scope. -/
theorem read_subset (member : t ∈ k.read q a) : t ∈ k.whole q := by
  have wider : ∀ {keeps : Task → Bool}, t ∈ q.queued keeps → (keeps t = true → k.inScope q t = true) →
      t ∈ k.whole q := by
    intro keeps inQueue within
    obtain ⟨inTasks, queued, kept⟩ := mem_queued.mp inQueue
    exact mem_queued.mpr ⟨inTasks, queued, within kept⟩
  unfold read at member
  rw [List.mem_eraseDups, List.mem_append, List.mem_append, List.mem_append] at member
  rcases member with ((inHeads | inOwners) | native) | reserved
  · obtain ⟨head, isHead, inRows⟩ := List.mem_flatMap.mp inHeads
    exact wider (mem_of_rows inRows) fun kept => (inScope_of_head isHead kept).1
  · obtain ⟨b, -, inOwner⟩ := List.mem_flatMap.mp inOwners
    unfold ownerHeads at inOwner
    split at inOwner
    · obtain ⟨owner, -, inRows⟩ := List.mem_flatMap.mp inOwner
      refine wider (mem_of_rows inRows) fun kept => ?_
      simp only [Bool.and_eq_true] at kept
      exact kept.1.1.2
    · cases inOwner
  · unfold firstNative at native
    split at native
    · refine wider (mem_of_rows native) fun kept => ?_
      simp only [Bool.and_eq_true] at kept
      exact kept.1.2
    · cases native
  · unfold reservedTask at reserved
    split at reserved
    · cases reserved
    · refine wider reserved fun kept => ?_
      simp only [Bool.and_eq_true] at kept
      exact kept.2

/-- A health job that an emulated lane's marks keep out of the lane's head; `select` does not ask for them. -/
def markedHealth (k : Claim) (t : Task) : Bool :=
  !k.me.legacy && t.kind == .health && k.emulatedOnly t.arch && !k.notRefused t.arch t

theorem mem_archs (host : k.me.legacy = false) (lane : ∃ l ∈ k.me.lanes, l.arch = t.arch) : t.arch ∈ k.archs a := by
  obtain ⟨l, member, same⟩ := lane
  rw [archs, if_neg (by simp [host]), List.mem_eraseDups]
  exact List.mem_map.mpr ⟨l, member, same⟩

theorem mem_heads_of_lane (host : k.me.legacy = false) (lane : ∃ l ∈ k.me.lanes, l.arch = t.arch) :
    k.laneHead q t.arch ∈ k.heads q a := by
  unfold heads
  rw [if_neg (by simp [host])]
  exact List.mem_append_left _ (List.mem_append_left _ (List.mem_map.mpr ⟨t.arch, mem_archs host lane, rfl⟩))

/-- The marks an emulated lane asks for are those its head leaves out. -/
theorem notRefused_of (refuses : emulationRefuses k.me (k.candidate q t) = false) :
    k.notRefused t.arch t = true := by
  simp only [emulationRefuses, candidate_needsNative, candidate_refused4k, candidate_arch,
    Bool.or_eq_false_iff] at refuses
  unfold notRefused on4k
  split
  · simp [refuses.1]
  · simp_all

theorem projectsOwn_of (own : contributorsCode (k.candidate q t) = false) : projectsOwn t = true := by
  simp only [contributorsCode, candidate_kind, candidate_trust, Bool.not_eq_false', Bool.and_eq_true, beq_iff_eq,
    Bool.not_eq_true'] at own
  obtain ⟨⟨build, project⟩, notCopy⟩ := own
  have isCopy : t.isCopy = false := by
    have bound : (k.candidate q t).publishBound = (t.isCopy || _) := rfl
    rw [bound, Bool.or_eq_false_iff] at notCopy
    exact notCopy.1
  simp only [Task.isCopy, build, project, beq_self_eq_true, Bool.true_and] at isCopy
  simp [projectsOwn, build, project, Option.isSome_eq_false_iff.mp isCopy]

/-- An audit is read with the others or apart. -/
theorem audits_covered (inScope : k.inScope q t = true) (fits : k.fits q t = true)
    (onLane : k.me.legacy = false ∨ t.arch = a ∨ t.kind ∈ k.rules.legacyAnyArch)
    (apart : k.otherAudits q t = false) : ∃ head ∈ k.heads q a, head.keeps t = true := by
  simp only [otherAudits, Bool.not_eq_false', Bool.and_eq_true] at apart
  refine ⟨k.sameModelHead q a, ?_, ?_⟩
  · unfold heads
    exact List.mem_append_right _ (by simp [apart.1])
  · have audit : t.kind = .audit := by
      have := apart.2
      simp only [sameModelAudit, Bool.and_eq_true, beq_iff_eq] at this
      exact this.1
    simp only [sameModelHead, inScope, fits, apart.2, Bool.and_true, Bool.and_eq_true, beq_iff_eq, audit,
      true_and, Bool.or_eq_true, Bool.not_eq_true', decide_eq_true_eq]
    rw [audit] at onLane
    tauto

theorem lane_covered (host : k.me.legacy = false) (inScope : k.inScope q t = true) (fits : k.fits q t = true)
    (lane : ∃ l ∈ k.me.lanes, l.arch = t.arch) (ofLane : t.kind.hostAnyArch = false)
    (refused : k.emulatedOnly t.arch = true → k.notRefused t.arch t = true)
    (sandboxed : k.outsideSandbox t.arch = true → projectsOwn t = true) :
    ∃ head ∈ k.heads q a, head.keeps t = true := by
  refine ⟨k.laneHead q t.arch, mem_heads_of_lane host lane, ?_⟩
  simp only [laneHead, beq_self_eq_true, ofLane, inScope, fits, Bool.not_false, Bool.true_and, Bool.and_eq_true,
    Bool.or_eq_true, Bool.not_eq_true']
  constructor
  · cases only : k.emulatedOnly t.arch with
    | true => exact .inr (refused only)
    | false => exact .inl rfl
  · cases outside : k.outsideSandbox t.arch with
    | true => exact .inr (sandboxed outside)
    | false => exact .inl rfl

/-- What is left to selection, on a lane there is: the statement for that lane keeps the task. -/
theorem covered (made : k.Made a) (inScope : k.inScope q t = true) (fits : k.fits q t = true) {cap : Int}
    {mode : Option Mode} {byLane : Bool} (left : Left k q cap t mode byLane) :
    (∃ head ∈ k.heads q a, head.keeps t = true) ∨ k.markedHealth t = true := by
  cases legacy : k.me.legacy with
  | true =>
      obtain ⟨-, laneMode, lanes⟩ := made.legacy legacy
      have onLane : t.arch = a ∨ t.kind ∈ k.rules.legacyAnyArch := by
        by_contra off
        rw [not_or] at off
        have none_ : k.me.lanes.filter (·.arch == t.arch) = [] := by
          simp [lanes, Ne.symm off.1]
        have isLane := left.lane
        simp only [laneFor, candidate_kind, candidate_arch, none_, legacy] at isLane
        cases byLane_ : t.kind.byLane <;> simp [byLane_, off.2] at isLane
      refine .inl ?_
      cases apart : k.otherAudits q t with
      | false => exact audits_covered inScope fits (.inr onLane) apart
      | true =>
          refine ⟨k.legacyHead q a, ?_, ?_⟩
          · unfold heads
            simp [legacy]
          · simp only [legacyHead, inScope, fits, apart, Bool.and_true, Bool.or_eq_true, beq_iff_eq,
              decide_eq_true_eq]
            exact onLane
  | false =>
      cases byLane_ : t.kind.byLane with
      | true =>
          obtain ⟨lane, emulated⟩ := lane_of_byLane (c := k.candidate q t) byLane_ left.lane
          refine .inl (lane_covered legacy inScope fits lane (by simp [TaskKind.hostAnyArch, byLane_]) ?_ ?_)
          · intro only
            obtain ⟨isByLane, isMode, -⟩ := emulated (by simpa [emulatedOnly] using only)
            have refuses := left.refuses
            simp only [isByLane, isMode, beq_self_eq_true, Bool.true_and] at refuses
            exact notRefused_of refuses
          · intro outside
            simp only [outsideSandbox, Bool.and_eq_true] at outside
            obtain ⟨-, -, own⟩ := emulated (by simpa [emulatedOnly] using outside.2)
            rw [outside.1.2, Bool.true_and] at own
            exact projectsOwn_of own
      | false =>
          cases helper : t.kind.helper with
          | true =>
              have lane := lane_of_helper (c := k.candidate q t) legacy byLane_ helper left.lane
              have health : t.kind = .health := by simpa [TaskKind.helper] using helper
              by_cases marked : k.emulatedOnly t.arch = true → k.notRefused t.arch t = true
              · refine .inl (lane_covered legacy inScope fits lane (by simp [TaskKind.hostAnyArch, helper]) marked ?_)
                exact fun _ => by simp [projectsOwn, byLane_]
              · refine .inr ?_
                rw [Classical.not_imp, Bool.not_eq_true] at marked
                simp [markedHealth, legacy, health, marked.1, marked.2]
          | false =>
              refine .inl ?_
              cases apart : k.otherAudits q t with
              | false => exact audits_covered inScope fits (.inl legacy) apart
              | true =>
                  refine ⟨k.neutralHead q, ?_, ?_⟩
                  · unfold heads
                    simp [legacy]
                  · simp [neutralHead, TaskKind.hostAnyArch, byLane_, helper, inScope, fits, apart]

end Read

/-! ## The rows and the queue -/

section Agree

variable {k : Claim} {q : Queue} {a : Arch} {t : Task} (ids : (q.tasks.map (·.id)).Nodup)

theorem whole_subset (member : t ∈ k.whole q) : t ∈ q.tasks := (mem_queued.mp member).1

theorem inScope_of_whole (member : t ∈ k.whole q) : k.inScope q t = true := (mem_queued.mp member).2.2

include ids in
/-- The candidate of an id among some of the queue's tasks. -/
theorem find_candidate {tasks : List Task} (within : ∀ t ∈ tasks, t ∈ q.tasks) {id : TaskId} :
    ∀ c, (tasks.map (k.candidate q)).find? (·.id == id) = some c ↔
      ∃ t ∈ tasks, t.id = id ∧ k.candidate q t = c := by
  intro c
  rw [List.find?_map, Option.map_eq_some_iff]
  constructor
  · rintro ⟨t, found, isC⟩
    exact ⟨t, List.mem_of_find?_eq_some found, by simpa using List.find?_some found, isC⟩
  · rintro ⟨t, member, isId, isC⟩
    cases found : tasks.find? ((fun c : Candidate => c.id == id) ∘ k.candidate q) with
    | none =>
        have := List.find?_eq_none.mp found t member
        exact absurd isId (by simpa using this)
    | some first =>
        have sameId : first.id = id := by simpa using List.find?_some found
        have same : first = t := List.inj_on_of_nodup_map ids (within first (List.mem_of_find?_eq_some found))
          (within t member) (sameId.trans isId.symm)
        exact ⟨first, rfl, by rw [same, isC]⟩

include ids in
/-- The task a host reserves for is found among the rows when it is found in the queue. -/
theorem marked_agree {mark : Mark} (isMark : (if k.me.legacy then none else reservingNow k.me k.now) = some mark) :
    ((k.read q a).map (k.candidate q)).find? (·.id == mark.task) =
      ((k.whole q).map (k.candidate q)).find? (·.id == mark.task) := by
  have host : k.me.legacy = false := by
    cases legacy : k.me.legacy with
    | true =>
        rw [legacy] at isMark
        cases isMark
    | false => rfl
  have reserving : k.me.reserving = some mark := by
    rw [host, if_neg (by simp)] at isMark
    exact (Option.filter_eq_some_iff.mp isMark).1
  refine Option.ext fun c => ?_
  rw [find_candidate ids fun t member => whole_subset (read_subset member), find_candidate ids fun t => whole_subset]
  constructor
  · rintro ⟨t, member, rest⟩
    exact ⟨t, read_subset member, rest⟩
  · rintro ⟨t, member, isId, isC⟩
    refine ⟨t, ?_, isId, isC⟩
    obtain ⟨inTasks, queued, inScope⟩ := mem_queued.mp member
    unfold read
    rw [List.mem_eraseDups]
    refine List.mem_append_right _ ?_
    rw [reservedTask, if_neg (by simp [host])]
    exact mem_queued.mpr ⟨inTasks, queued, by simp [reserving, isId, inScope]⟩

/-- The task matches a head and stands behind its rows, or its marks keep it out of every head. -/
def Behind (k : Claim) (q : Queue) (a : Arch) (t : Task) : Prop :=
  t ∈ k.whole q ∧ ((∃ head ∈ k.heads q a, head.keeps t = true ∧ t ∉ head.rows q) ∨
    k.markedHealth t = true ∧ k.fits q t = true)

include ids in
/-- A row nothing in the queue holds back is held back by nothing among the rows. -/
theorem free_of_read (half : k.rules.emulatedShare ≤ 1 / 2) (member : t ∈ k.read q a)
    (free : k.Free q (k.whole q) t) : k.Free q (k.read q a) t := by
  obtain ⟨inPool, mode, byLane, left⟩ := free
  have toRead : ∀ c, c ∈ (k.read q a).map (k.candidate q) → c ∈ k.pool q (k.whole q) →
      c ∈ k.pool q (k.read q a) :=
    fun c inRows => poolOf_congr (fun mark isMark => marked_agree ids isMark) inRows
  have toWhole : ∀ c ∈ k.pool q (k.read q a), c ∈ k.pool q (k.whole q) := by
    intro c inRead
    obtain ⟨t', member', rfl⟩ := List.mem_map.mp (poolOf_subset inRead)
    exact poolOf_congr (fun mark isMark => (marked_agree ids isMark).symm)
      (List.mem_map.mpr ⟨t', read_subset member', rfl⟩) inRead
  refine ⟨toRead _ (List.mem_map.mpr ⟨t, member, rfl⟩) inPool, mode, byLane, ?_⟩
  have caps := @emulatedCapOf_anti k.me k.rules half _ _ toWhole
  refine { left with share := ?_ }
  have share := left.share
  rw [Bool.and_eq_false_iff, decide_eq_false_iff_not] at share ⊢
  rcases share with other | within
  · exact .inl other
  · exact .inr (by omega)

end Agree

/-- When the heads bring something to take whenever the queue holds something to take: whenever a task
behind a head is held back by nothing the statements leave to selection, some row that was read and fits is
not either. -/
theorem head_hides_iff {k : Claim} {a : Arch} (made : k.Made a) (half : k.rules.emulatedShare ≤ 1 / 2)
    {q : Queue} (ids : (q.tasks.map (·.id)).Nodup) :
    (k.chooses q (k.whole q) ≠ [] → k.chooses q (k.read q a) ≠ []) ↔
      ((∃ t, k.Behind q a t ∧ k.Free q (k.whole q) t) →
        ∃ t ∈ k.read q a, k.fits q t = true ∧ k.Free q (k.read q a) t) := by
  rw [chooses_iff made fun t member => inScope_of_whole (read_subset member),
    chooses_iff made fun t member => inScope_of_whole member]
  constructor
  · rintro brings ⟨t, ⟨member, behind⟩, free⟩
    refine brings ⟨t, member, ?_, free⟩
    rcases behind with ⟨head, isHead, kept, -⟩ | ⟨-, fits⟩
    · exact (inScope_of_head isHead kept).2
    · exact fits
  · rintro brings ⟨t, member, fits, free⟩
    obtain ⟨inPool, mode, byLane, left⟩ := free
    rcases covered made (inScope_of_whole member) fits left with ⟨head, isHead, kept⟩ | marked
    · by_cases inRows : t ∈ head.rows q
      · have read_ : t ∈ k.read q a := by
          unfold read
          rw [List.mem_eraseDups]
          exact List.mem_append_left _ (List.mem_append_left _ (List.mem_append_left _
            (List.mem_flatMap.mpr ⟨head, isHead, inRows⟩)))
        exact ⟨t, read_, fits, free_of_read ids half read_ ⟨inPool, mode, byLane, left⟩⟩
      · exact brings ⟨t, ⟨member, .inl ⟨head, isHead, kept, inRows⟩⟩, inPool, mode, byLane, left⟩
    · exact brings ⟨t, ⟨member, .inr ⟨marked, fits⟩⟩, inPool, mode, byLane, left⟩

end Claim

/-- A host with a native and an emulated lane, and another that runs the emulated one's architecture
natively and is idle. -/
def emulatingHost : Member :=
  { nativeHost "h" 5 with lanes := [⟨.aarch64, .native, none⟩, ⟨.x86_64, .emulated, some false⟩], kinds := [.build] }

def emulatingClaim : Claim where
  me := emulatingHost
  others := [{ nativeHost "x" 5 with lanes := [⟨.x86_64, .native, none⟩], kinds := [.build] }]
  rules := signedRules
  now := 0
  gen := fun _ => "g"

def recipeTask (id : TaskId) : Task := { id, name := "zed", arch := .x86_64, kind := .build, trust := .project }

/-- Builds that wait for the native host, and behind them one asked for the emulating host itself. -/
def queueBehind (n : Nat) : Queue where
  tasks := (List.range n).map (fun i => recipeTask (i + 1)) ++ [{ recipeTask (n + 1) with pinnedTo := some "h" }]
  nextTask := n + 2
  mayLease := fun _ => true

theorem emulatingClaim_made : emulatingClaim.Made .aarch64 := ⟨rfl, fun _ => rfl, fun legacy => nomatch legacy⟩

theorem head_hides_iff_queueBehind :
    emulatingClaim.chooses (queueBehind 9) (emulatingClaim.whole (queueBehind 9)) ≠ [] ∧
    ((∃ t, emulatingClaim.Behind (queueBehind 9) .aarch64 t ∧
        emulatingClaim.Free (queueBehind 9) (emulatingClaim.whole (queueBehind 9)) t) →
      ∃ t ∈ emulatingClaim.read (queueBehind 9) .aarch64, emulatingClaim.fits (queueBehind 9) t = true ∧
        emulatingClaim.Free (queueBehind 9) (emulatingClaim.read (queueBehind 9) .aarch64) t) :=
  ⟨by decide +kernel, (Claim.head_hides_iff emulatingClaim_made (by decide +kernel) (by decide +kernel)).mp
    fun _ => by decide +kernel⟩

/-- Fifty builds that wait for the native host fill the head: the one behind them is not read. -/
theorem head_hides_fiftyFirst :
    ¬(emulatingClaim.chooses (queueBehind 50) (emulatingClaim.whole (queueBehind 50)) ≠ [] →
      emulatingClaim.chooses (queueBehind 50) (emulatingClaim.read (queueBehind 50) .aarch64) ≠ []) := by
  decide +kernel

end OmarchyPool.Factory
