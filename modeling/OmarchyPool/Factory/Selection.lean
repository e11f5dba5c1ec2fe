/-
# OmarchyPool.Factory.Selection -- which queued task a claim is handed

`selection.ts`: over the registrations alive, the leases the pool holds and the candidates a
claim read, which of them the claimer may take and in which order.  It is pure: the clock is
an argument, and so are the signed constants (`Rules`).  What decides in the end is the
conditional UPDATE of the claim (`Factory.Queue`); what is chosen here was read before it.

Times are milliseconds.  Units are whole numbers, and room may be negative (a host that now
declares fewer than it holds); disk and shares are rationals.
-/
import Mathlib.Data.List.Sort
import Mathlib.Data.Rat.Floor
import Mathlib.Tactic.Linarith
import OmarchyPool.Store

namespace OmarchyPool.Factory

set_option autoImplicit false

/-! ## Data -/

/-- `ALL_KINDS`. -/
inductive TaskKind where
  | build | sync | promote | rollback | render | health | security | metrics | gc | enqueue | audit
  | verify | relayout | publish | trial
deriving DecidableEq, Repr

inductive Trust where
  | project | community
deriving DecidableEq, Repr

inductive Mode where
  | native | emulated
deriving DecidableEq, Repr

abbrev TaskId := Nat
abbrev WorkerId := String

/-- A name that is there and is not empty. -/
def said (name : Option String) : Bool := name.any (· ≠ "")

structure Lane where
  arch : Arch
  mode : Mode
  page16k : Option Bool := none
deriving DecidableEq, Repr

/-- A lease the pool holds, as selection counts it. -/
structure Held where
  task : TaskId
  byWorker : WorkerId
  kind : TaskKind
  arch : Arch
  lane : Option Mode
  units : Int
  model : Bool
  trust : Trust
  owner : Option String
  diskGb : ℚ
deriving DecidableEq, Repr

inductive Scope where
  | host | project | community
deriving DecidableEq, Repr

structure Disk where
  work : ℚ
  engine : ℚ
deriving DecidableEq, Repr

/-- A host's mark: the large task it keeps its units for. -/
structure Mark where
  task : TaskId
  since : Int
deriving DecidableEq, Repr

/-- A registration of the fleet. -/
structure Member where
  id : WorkerId
  legacy : Bool
  lanes : List Lane
  sandbox : Bool := false
  units : Int
  agentSlots : Nat
  disk : Option Disk
  kinds : List TaskKind
  probeOk : Bool
  drained : Bool := false
  belowMinimum : Bool := false
  /-- Below the minimum for its free disk alone: what the minimum asks. -/
  belowDisk : Option Disk := none
  mayClaim : Bool := true
  behind : Bool := false
  seenAt : Int
  aliveMs : Option Int := none
  reserving : Option Mark := none
  scope : Scope
  busy : Bool := false
  asleep : Bool := false
  offer : Option Int := none
  owner : Option String := none
  model : Option String := none
deriving DecidableEq, Repr

structure Candidate where
  id : TaskId
  name : String
  kind : TaskKind
  arch : Arch
  trust : Trust
  owner : Option String
  priority : Int
  queuedAt : Int
  pinnedTo : Option WorkerId
  needsNative : Bool
  refused4k : Bool
  model : Bool
  size : Option Nat
  diskGb : Option ℚ
  nativeMs : Option Int
  reservedAt : Option Int
  jobArch : Option Arch
  publishBound : Bool
  requesters : List String
  anyHost : Option String
  solo : Option String
  builtBy : Option WorkerId
  builtWith : Option String
  builtOn : Option String
deriving DecidableEq, Repr

/-- The signed constants and the settings. -/
structure Rules where
  buildPerSize : Nat
  trial : Nat
  audit : Nat
  job : Nat
  jobReserved : Nat
  maxSize : Nat
  communityMaxSize : Nat
  gbPerSize : ℚ
  floorGb : ℚ
  emulatedShare : ℚ
  ownerDivisor : Nat
  legacyAnyArch : List TaskKind

/-- A model, the registration that runs it and when it last answered. -/
structure ModelSeen where
  id : WorkerId
  model : String
  at_ : Int

structure Fleet where
  members : List Member
  leases : List Held
  models : List ModelSeen := []

inductive Independence where
  | model | host | none
deriving DecidableEq, Repr

/-- A candidate the claimer may take, as its lease is written. -/
structure Choice where
  id : TaskId
  lane : Option Mode
  size : Option Nat
  asked : Option Nat
  units : Nat
  diskGb : Option ℚ
  share : Bool
  independent : Option Independence
deriving DecidableEq, Repr

/-! ## Constants -/

def minute : Int := 60000
def aliveMs : Int := 2 * minute
def tMinMs : Int := 3 * minute
def tMaxMs : Int := 60 * minute
def reserveForMs : Int := 120 * minute
def modelWindowMs : Int := 24 * 60 * minute
def elsewhereMs : Int := tMinMs

namespace TaskKind

/-- `LANE_KINDS`: they run the task's architecture. -/
def byLane (kind : TaskKind) : Bool := kind ∈ [.build, .trial]

/-- `HELPER_KINDS`. -/
def helper (kind : TaskKind) : Bool := kind ∈ [.health]

/-- `TASK_KINDS`: what is not a pool job. -/
def isTask (kind : TaskKind) : Bool := kind ∈ [.build, .trial, .audit]

end TaskKind

/-- The architectures a job's helper containers run, none for a kind that starts none. -/
def helperArches (c : Candidate) : Option (List Arch) :=
  match c.kind with
  | .health => some [c.arch]
  | .promote => some (c.jobArch.elim repoArches ([·]))
  | .security => some repoArches
  | _ => none

/-! ## Sizes and units -/

def alive (m : Member) (now : Int) : Bool := m.seenAt > now - m.aliveMs.getD aliveMs

/-- How long an emulated candidate waits for native capacity. -/
def thresholdMs (nativeMs : Option Int) : Int :=
  match nativeMs with
  | none => tMinMs
  | some ms => if 0 < ms then min tMaxMs (max tMinMs (2 * ms)) else tMinMs

def buildsOf (m : Member) (r : Rules) : Int :=
  if m.legacy then (if .build ∈ m.kinds then 1 else 0)
  else max 0 ((m.units - r.jobReserved) / (r.buildPerSize : Int))

def counts (m : Member) (now : Int) : Bool := alive m now && m.mayClaim && !m.belowMinimum && !m.asleep

/-- The largest size the fleet alive runs, at least 1. -/
def largestSize (fleet : Fleet) (now : Int) (r : Rules) : Nat :=
  fleet.members.foldl
    (fun best m => if counts m now then max best (min r.maxSize (buildsOf m r).toNat) else best) 1

/-- A build's size and the size it asked for. -/
def sizeOf (c : Candidate) (largest : Nat) (r : Rules) : Option (Nat × Nat) :=
  if c.kind = .build then
    let most := if c.trust = .community then r.communityMaxSize else r.maxSize
    let asked := min (max (c.size.getD 1) 1) most
    some (min asked largest, asked)
  else none

def unitsOf (kind : TaskKind) (size : Option Nat) (r : Rules) : Nat :=
  match kind with
  | .build => r.buildPerSize * size.getD 1
  | .trial => r.trial
  | .audit => r.audit
  | _ => r.job

def diskOf (c : Candidate) (size : Option Nat) (r : Rules) : Option ℚ :=
  if c.kind = .build then some (c.diskGb.getD (r.gbPerSize * size.getD 1)) else none

/-! ## Lanes -/

/-- Everything but the project's own recipe. -/
def contributorsCode (c : Candidate) : Bool :=
  !(c.kind == .build && c.trust == .project && !c.publishBound)

/-- The lane a registration would run a candidate on, and whether native is preferred. -/
def laneFor (m : Member) (c : Candidate) (r : Rules) : Option (Option Mode × Bool) :=
  let lanes := m.lanes.filter (·.arch == c.arch)
  let native := lanes.any (·.mode == .native)
  if c.kind.byLane then
    if native then some (some .native, true)
    else if m.sandbox && contributorsCode c then none
    else if lanes.isEmpty then none
    else some (some .emulated, true)
  else if m.legacy then
    match lanes with
    | lane :: _ => some (some lane.mode, false)
    | [] => if c.kind ∈ r.legacyAnyArch then some (none, false) else none
  else if c.kind.helper then
    if lanes.isEmpty then none else some (some (if native then .native else .emulated), false)
  else if (helperArches c).any fun arches => !arches.all fun a => m.lanes.any (·.arch == a) then none
  else some (none, false)

/-- The task's marks keep it off the registration's emulated lane. -/
def emulationRefuses (m : Member) (c : Candidate) : Bool :=
  c.refused4k || c.needsNative &&
    !m.lanes.any fun l => l.arch == c.arch && l.mode == .emulated && l.page16k == some false

/-- Its kinds, the pin, the probe for model work, and a legacy one's trust. -/
def takes (m : Member) (c : Candidate) : Bool :=
  m.kinds.contains c.kind && c.pinnedTo.all (· == m.id) && (!c.model || m.probeOk) &&
    !(m.scope == .project && c.kind == .build && c.trust == .community) &&
    !(m.scope == .community && c.trust != .community)

/-! ## Room -/

/-- The leases of a registration, as its own count reads them: a legacy one's never. -/
def heldBy (fleet : Fleet) (m : Member) : List Held :=
  if m.legacy then [] else fleet.leases.filter (·.byWorker == m.id)

/-- The units its tasks hold, and those its pool jobs hold. -/
def taskUnits (held : List Held) : Int := ((held.filter (·.kind.isTask)).map (·.units)).sum
def jobUnits (held : List Held) : Int := ((held.filter (!·.kind.isTask)).map (·.units)).sum

structure Room where
  task : Int
  job : Int
deriving DecidableEq, Repr

/-- A host's free units: one is kept for pool jobs, which hold it first. -/
def roomOf (m : Member) (held : List Held) (r : Rules) : Room where
  task := m.units - max (r.jobReserved : Int) (jobUnits held) - taskUnits held
  job := m.units - taskUnits held - jobUnits held

inductive Lacks where
  | units | memory | agentSlot | disk
deriving DecidableEq, Repr

/-- Why a candidate does not fit a host's free capacity now. -/
def noRoom (m : Member) (held : List Held) (c : Candidate) (units : Nat) (disk : Option ℚ) (r : Rules) :
    Option Lacks :=
  if m.legacy then (if units > r.buildPerSize then some .units else none)
  else
    let room := roomOf m held r
    if (units : Int) > (if c.kind.isTask then room.task else room.job) then some .units
    else if m.offer.any fun offer => (units : Int) > offer then some .memory
    else if c.model && m.agentSlots ≤ (held.filter (·.model)).length then some .agentSlot
    else if c.kind = .build then
      match m.disk with
      | none => some .disk
      | some d =>
          let budgets := ((held.filter (·.kind == .build)).map (·.diskGb)).sum
          if disk.getD 0 + r.floorGb > min d.work d.engine - budgets then some .disk else none
    else none

def reservingNow (m : Member) (now : Int) : Option Mark :=
  m.reserving.filter fun mark => mark.since > now - reserveForMs

/-! ## Placement -/

def projectCopy (c : Candidate) : Bool := c.kind == .build && c.publishBound

/-- The requester-host rule: the project's copy is not built on its requester's host. -/
def requesterHost (m : Member) (c : Candidate) : Bool :=
  projectCopy c && !said c.anyHost && m.owner.any fun owner => c.solo != some owner && c.requesters.contains owner

/-- Whether another registration could take the candidate natively now. -/
def nativeCapacity (fleet : Fleet) (c : Candidate) (now : Int) (r : Rules) (except : WorkerId) : Bool :=
  let size := (sizeOf c (largestSize fleet now r) r).map (·.1)
  fleet.members.any fun x =>
    x.id != except && counts x now && !x.drained && !x.behind &&
      (x.lanes.any fun l => l.arch == c.arch && l.mode == .native) &&
      takes x c && !requesterHost x c && (reservingNow x now).all (·.task == c.id) &&
      !(x.legacy && (x.busy || fleet.leases.any (·.byWorker == x.id))) &&
      (noRoom x (heldBy fleet x) c (unitsOf c.kind size r) (diskOf c size r) r).isNone

/-- The second opinion: another model than the one that built it was alive in the last day. -/
def needsOtherModel (fleet : Fleet) (c : Candidate) (now : Int) : Bool :=
  c.kind == .audit && c.publishBound && said c.builtWith &&
    fleet.models.any fun seen => seen.at_ > now - modelWindowMs && some seen.model != c.builtWith

def anotherModel (m : Member) (c : Candidate) : Bool :=
  said m.model && said c.builtWith && m.model != c.builtWith

/-- Certainly on different machines: different owners, both known. -/
def apart (a b : Option String) : Bool := a.isSome && b.isSome && a != b

def besideBuilder (m : Member) (c : Candidate) : Bool :=
  c.builtBy.any fun builder => m.id == builder || !apart m.owner c.builtOn

/-- Whether a registration on another machine than the builder's could take the audit now. -/
def auditElsewhere (fleet : Fleet) (c : Candidate) (now : Int) (r : Rules) (except : WorkerId) : Bool :=
  fleet.members.any fun x =>
    x.id != except && !besideBuilder x c && counts x now && !x.drained && !x.behind &&
      takes x c && (laneFor x c r).isSome && !(needsOtherModel fleet c now && !anotherModel x c) &&
      (reservingNow x now).all (·.task == c.id) &&
      !(x.legacy && (x.busy || fleet.leases.any (·.byWorker == x.id))) &&
      (noRoom x (heldBy fleet x) c (unitsOf c.kind none r) none r).isNone

/-- How independent an audit leased to `m` is of what it audits. -/
def independenceOf (m : Member) (c : Candidate) : Option Independence :=
  if c.kind = .audit then
    if anotherModel m c then some .model
    else if !c.publishBound && c.builtBy.isSome && !besideBuilder m c then some .host
    else some .none
  else none

/-! ## The per-owner cap -/

def totalBuilds (members : List Member) (now : Int) (r : Rules) : Int :=
  (members.map fun m => if counts m now then buildsOf m r else 0).sum

/-- At most `ceil(the alive fleet's builds / divisor)`, at least 1; none when the divisor is 0. -/
def ownerCap (fleet : Fleet) (now : Int) (r : Rules) : Option Nat :=
  if r.ownerDivisor = 0 then none
  else some (max 1 ⌈(totalBuilds fleet.members now r : ℚ) / r.ownerDivisor⌉.toNat)

/-- An owner's community builds leased across the fleet. -/
def ownersLeased (leases : List Held) (owner : String) : Nat :=
  leases.countP fun l => l.kind == .build && l.trust == .community && l.owner == some owner

/-! ## Select -/

/-- A candidate that passed, with what the order looks at. -/
structure Ranked where
  choice : Choice
  c : Candidate
  age : Int
  ownerKey : Nat
deriving DecidableEq

/-- Priority, then the owner's leased builds, then effective age (oldest first), then id. -/
def Ranked.before (a b : Ranked) : Bool :=
  a.c.priority < b.c.priority || a.c.priority == b.c.priority &&
    (a.ownerKey < b.ownerKey || a.ownerKey == b.ownerKey &&
      (b.age < a.age || a.age == b.age && a.c.id ≤ b.c.id))

/-- Oldest first. -/
def Ranked.older (a b : Ranked) : Bool :=
  a.c.queuedAt < b.c.queuedAt || a.c.queuedAt == b.c.queuedAt && a.c.id ≤ b.c.id

/-- The builds an owner of a community build holds, none for what has no owner to count. -/
def cappedOwner (c : Candidate) : Option String :=
  if c.kind = .build ∧ c.trust = .community then c.owner.filter (· ≠ "") else none

/-- One candidate: why not, or how its lease would be written. -/
def consider (h : Member) (fleet : Fleet) (emulatedCap emulatedHeld : Int) (now : Int) (r : Rules)
    (c : Candidate) : Option Ranked := do
  let held := heldBy fleet h
  guard (takes h c)
  guard (!requesterHost h c)
  guard (!(c.kind == .audit && needsOtherModel fleet c now && !anotherModel h c))
  guard (!(c.kind == .audit && besideBuilder h c && now - c.queuedAt < elsewhereMs &&
    auditElsewhere fleet c now r h.id))
  let (mode, byLane) ← laneFor h c r
  let size := sizeOf c (largestSize fleet now r) r
  let units := unitsOf c.kind (size.map (·.1)) r
  let disk := diskOf c (size.map (·.1)) r
  guard (noRoom h held c units disk r).isNone
  let onEmulated := byLane && mode == some .emulated
  let t := thresholdMs c.nativeMs
  guard (!(onEmulated && emulationRefuses h c))
  guard (!(onEmulated && now - c.queuedAt < t && nativeCapacity fleet c now r h.id))
  guard (!(onEmulated && !h.legacy && 0 < emulatedHeld && emulatedHeld + units > emulatedCap))
  let leased := (cappedOwner c).map (ownersLeased fleet.leases)
  guard (!(leased.any fun n => (ownerCap fleet now r).any (· ≤ n)))
  some
    { choice :=
        { id := c.id, lane := mode, size := size.map (·.1), units, diskGb := disk, share := false
          asked := (size.filter fun s => s.1 < s.2).map (·.2), independent := independenceOf h c }
      c, age := now - c.queuedAt - (if onEmulated then t else 0), ownerKey := leased.getD 0 }

/-- The candidates the claimer may take now, in the order it takes them. -/
def select (h : Member) (fleet : Fleet) (candidates : List Candidate) (now : Int) (r : Rules) : List Choice :=
  if h.asleep then [] else
  let held := heldBy fleet h
  let mark := if h.legacy then none else reservingNow h now
  let marked := mark.bind fun mark => candidates.find? (·.id == mark.task)
  let holding := marked.any fun c =>
    (roomOf h held r).task < unitsOf c.kind ((sizeOf c (largestSize fleet now r) r).map (·.1)) r
  let pool := if holding then
    candidates.filter fun c => mark.any (·.task == c.id) || !c.kind.isTask else candidates
  let nativeQueued := pool.any fun c =>
    takes h c && (laneFor h c r).any (·.1 == some .native) && c.kind.byLane
  let builds := buildsOf h r
  let emulatedCap := max 1 (if nativeQueued then ⌈(builds : ℚ) * r.emulatedShare⌉ else builds - 1) *
    (r.buildPerSize : Int)
  let emulatedHeld := ((held.filter fun l => l.lane == some .emulated && l.kind.byLane).map (·.units)).sum
  let ok := (pool.filterMap (consider h fleet emulatedCap emulatedHeld now r)).insertionSort
    fun a b => a.before b
  -- An emulated lane the claimer holds no lease of, whose architecture nobody alive runs natively.
  let starved := fun arch : Arch =>
    (h.legacy || !held.any fun l => l.lane == some .emulated && l.arch == arch) &&
      !fleet.members.any fun m => alive m now && m.mayClaim && !m.asleep &&
        m.lanes.any fun l => l.arch == arch && l.mode == .native
  let shared := ((ok.filter fun e =>
    e.choice.lane == some .emulated && e.c.kind.byLane && starved e.c.arch).insertionSort
      fun a b => a.older b).head?
  let order := match shared with
    | some e => { e.choice with share := true } :: (ok.erase e).map (·.choice)
    | none => ok.map (·.choice)
  match marked.bind fun c => order.find? (·.id == c.id) with
  | some own => own :: order.eraseP (·.id == own.id)
  | none => order

/-! ## What is chosen -/

/-- What `select` looks at: while a host keeps its units for a large task, that task and pool jobs. -/
def poolOf (h : Member) (fleet : Fleet) (candidates : List Candidate) (now : Int) (r : Rules) :
    List Candidate :=
  let mark := if h.legacy then none else reservingNow h now
  let marked := mark.bind fun mark => candidates.find? (·.id == mark.task)
  let holding := marked.any fun c =>
    (roomOf h (heldBy fleet h) r).task < unitsOf c.kind ((sizeOf c (largestSize fleet now r) r).map (·.1)) r
  if holding then candidates.filter fun c => mark.any (·.task == c.id) || !c.kind.isTask else candidates

/-- A native-lane task for the host is among the candidates. -/
def nativeQueued (h : Member) (pool : List Candidate) (r : Rules) : Bool :=
  pool.any fun c => takes h c && (laneFor h c r).any (·.1 == some .native) && c.kind.byLane

def emulatedCapOf (h : Member) (pool : List Candidate) (r : Rules) : Int :=
  max 1 (if nativeQueued h pool r then ⌈(buildsOf h r : ℚ) * r.emulatedShare⌉ else buildsOf h r - 1) *
    (r.buildPerSize : Int)

def emulatedHeldOf (h : Member) (fleet : Fleet) : Int :=
  (((heldBy fleet h).filter fun l => l.lane == some .emulated && l.kind.byLane).map (·.units)).sum

/-- `consider` on one candidate of a list, with the cap the list gives. -/
def considered (h : Member) (fleet : Fleet) (candidates : List Candidate) (now : Int) (r : Rules) :
    Candidate → Option Ranked :=
  consider h fleet (emulatedCapOf h (poolOf h fleet candidates now r) r) (emulatedHeldOf h fleet) now r

/-- Every filter of `select` for one candidate, on the lane it would run on. -/
structure Passes (h : Member) (fleet : Fleet) (cap now : Int) (r : Rules) (c : Candidate) (mode : Option Mode)
    (byLane : Bool) : Prop where
  takes : takes h c = true
  requester : requesterHost h c = false
  model : (c.kind == .audit && needsOtherModel fleet c now && !anotherModel h c) = false
  elsewhere : (c.kind == .audit && besideBuilder h c && decide (now - c.queuedAt < elsewhereMs) &&
    auditElsewhere fleet c now r h.id) = false
  lane : laneFor h c r = some (mode, byLane)
  room : noRoom h (heldBy fleet h) c (unitsOf c.kind ((sizeOf c (largestSize fleet now r) r).map (·.1)) r)
    (diskOf c ((sizeOf c (largestSize fleet now r) r).map (·.1)) r) r = none
  refuses : (byLane && mode == some .emulated && emulationRefuses h c) = false
  waits : (byLane && mode == some .emulated && decide (now - c.queuedAt < thresholdMs c.nativeMs) &&
    nativeCapacity fleet c now r h.id) = false
  share : (byLane && mode == some .emulated && !h.legacy && decide (0 < emulatedHeldOf h fleet) &&
    decide (emulatedHeldOf h fleet +
      unitsOf c.kind ((sizeOf c (largestSize fleet now r) r).map (·.1)) r > cap)) = false
  owner : (((cappedOwner c).map (ownersLeased fleet.leases)).any fun n =>
    (ownerCap fleet now r).any (· ≤ n)) = false

section Chosen

variable {h : Member} {fleet : Fleet} {cap now : Int} {r : Rules} {c : Candidate}

theorem guard_some {p : Prop} [Decidable p] {u : Unit} : (guard p : Option Unit) = some u ↔ p := by simp

theorem Passes.of_consider {e : Ranked} (chosen : consider h fleet cap (emulatedHeldOf h fleet) now r c = some e) :
    e.choice.id = c.id ∧ ∃ byLane, Passes h fleet cap now r c e.choice.lane byLane := by
  simp only [OmarchyPool.Factory.consider, Option.bind_eq_bind, Option.bind_eq_some_iff, guard_some,
    Bool.not_eq_true', Option.isNone_iff_eq_none] at chosen
  obtain ⟨-, takes, -, requester, -, model, -, elsewhere, ⟨mode, byLane⟩, lane, -, room, -, refuses, -, waits,
    -, share, -, owner, made⟩ := chosen
  cases made
  exact ⟨rfl, byLane, takes, requester, model, elsewhere, lane, room, refuses, waits, share, owner⟩

theorem Passes.consider {mode : Option Mode} {byLane : Bool} (passes : Passes h fleet cap now r c mode byLane) :
    ∃ e, consider h fleet cap (emulatedHeldOf h fleet) now r c = some e ∧ e.choice.id = c.id ∧
      e.choice.lane = mode := by
  simp only [OmarchyPool.Factory.consider, Option.bind_eq_bind, Option.bind_eq_some_iff, guard_some,
    Bool.not_eq_true', Option.isNone_iff_eq_none]
  refine ⟨_, ⟨(), passes.takes, (), passes.requester, (), passes.model, (), passes.elsewhere, _, passes.lane, (),
    passes.room, (), passes.refuses, (), passes.waits, (), passes.share, (), passes.owner, rfl⟩, rfl, rfl⟩

theorem poolOf_subset {candidates : List Candidate} {c : Candidate}
    (member : c ∈ poolOf h fleet candidates now r) : c ∈ candidates := by
  unfold poolOf at member
  extract_lets mark marked holding at member
  split at member
  · exact List.mem_of_mem_filter member
  · exact member

/-- Two lists that agree on the task a host reserves for look at a candidate of both alike. -/
theorem poolOf_congr {candidates others : List Candidate} {c : Candidate}
    (same : ∀ mark, (if h.legacy then none else reservingNow h now) = some mark →
      candidates.find? (·.id == mark.task) = others.find? (·.id == mark.task))
    (member : c ∈ candidates) (inPool : c ∈ poolOf h fleet others now r) :
    c ∈ poolOf h fleet candidates now r := by
  unfold poolOf at inPool ⊢
  generalize (if h.legacy then none else reservingNow h now) = mark at same inPool ⊢
  have marked : (mark.bind fun mark => candidates.find? (·.id == mark.task)) =
      mark.bind fun mark => others.find? (·.id == mark.task) := by
    cases mark with
    | none => rfl
    | some m => exact same m rfl
  dsimp only at inPool ⊢
  rw [marked]
  split at inPool
  · rw [if_pos ‹_›]
    exact List.mem_filter.mpr ⟨member, (List.mem_filter.mp inPool).2⟩
  · rw [if_neg ‹_›]
    exact member

/-- Whatever is chosen passed every filter, its share aside. -/
theorem mem_select {candidates : List Candidate} {choice : Choice}
    (chosen : choice ∈ select h fleet candidates now r) :
    h.asleep = false ∧ ∃ c ∈ poolOf h fleet candidates now r, ∃ e, considered h fleet candidates now r c = some e ∧
      choice = { e.choice with share := choice.share } := by
  unfold select at chosen
  split at chosen
  · cases chosen
  rename_i awake
  refine ⟨by simpa using awake, ?_⟩
  extract_lets held mark marked holding pool nativeQueued builds emulatedCap emulatedHeld ok starved shared order at chosen
  have fromOk : ∀ e ∈ ok, ∃ c ∈ poolOf h fleet candidates now r, considered h fleet candidates now r c = some e :=
    fun e member => List.mem_filterMap.mp ((List.mem_insertionSort _).mp member)
  have fromShared : ∀ e, shared = some e → e ∈ ok := by
    intro e first
    exact List.mem_of_mem_filter ((List.mem_insertionSort _).mp (List.mem_of_mem_head? first))
  have fromOrder : ∀ choice ∈ order, ∃ c ∈ poolOf h fleet candidates now r, ∃ e,
      considered h fleet candidates now r c = some e ∧ choice = { e.choice with share := choice.share } := by
    intro choice member
    unfold order at member
    clear_value shared
    split at member
    · rename_i e
      rcases List.mem_cons.mp member with rfl | rest
      · obtain ⟨c, inPool, is⟩ := fromOk e (fromShared e rfl)
        exact ⟨c, inPool, e, is, rfl⟩
      · obtain ⟨e', inOk, rfl⟩ := List.mem_map.mp rest
        obtain ⟨c, inPool, is⟩ := fromOk e' (List.mem_of_mem_erase inOk)
        exact ⟨c, inPool, e', is, rfl⟩
    · obtain ⟨e, inOk, rfl⟩ := List.mem_map.mp member
      obtain ⟨c, inPool, is⟩ := fromOk e inOk
      exact ⟨c, inPool, e, is, rfl⟩
  split at chosen
  · rename_i own found
    rcases List.mem_cons.mp chosen with rfl | rest
    · obtain ⟨c, -, first⟩ := Option.bind_eq_some_iff.mp found
      exact fromOrder _ (List.mem_of_find?_eq_some first)
    · exact fromOrder _ (List.mem_of_mem_eraseP rest)
  · exact fromOrder _ chosen

theorem mem_eraseP_find {α : Type} {p : α → Bool} {list : List α} {first x : α}
    (found : list.find? p = some first) (member : x ∈ list) : x = first ∨ x ∈ list.eraseP p := by
  obtain ⟨holds, before, after, rfl, none_⟩ := List.find?_eq_some_iff_append.mp found
  have others : ∀ b ∈ before, ¬p b = true := fun b inBefore => by simpa using none_ b inBefore
  rw [List.eraseP_append_right _ others, List.eraseP_cons_of_pos holds]
  rcases List.mem_append.mp member with inBefore | rest
  · exact .inr (List.mem_append_left _ inBefore)
  · rcases List.mem_cons.mp rest with same | inAfter
    · exact .inl same
    · exact .inr (List.mem_append_right _ inAfter)

/-- And whatever passes every filter is chosen: the order moves choices and drops none. -/
theorem select_considered {candidates : List Candidate} {c : Candidate} (awake : h.asleep = false)
    (member : c ∈ poolOf h fleet candidates now r) {e : Ranked}
    (is : considered h fleet candidates now r c = some e) :
    ∃ share, { e.choice with share } ∈ select h fleet candidates now r := by
  unfold select
  rw [if_neg (by simp [awake])]
  extract_lets held mark marked holding pool nativeQueued builds emulatedCap emulatedHeld ok starved shared order
  have inOk : e ∈ ok := (List.mem_insertionSort _).mpr (List.mem_filterMap.mpr ⟨c, member, is⟩)
  have inOrder : ∃ share, { e.choice with share } ∈ order := by
    unfold order
    clear_value shared
    cases shared with
    | none => exact ⟨e.choice.share, List.mem_map.mpr ⟨e, inOk, rfl⟩⟩
    | some first =>
        by_cases same : e = first
        · subst same
          exact ⟨true, List.mem_cons_self⟩
        · refine ⟨e.choice.share, List.mem_cons_of_mem _ (List.mem_map.mpr ⟨e, ?_, rfl⟩)⟩
          exact (List.mem_erase_of_ne same).mpr inOk
  obtain ⟨share, there⟩ := inOrder
  refine ⟨share, ?_⟩
  split
  · rename_i own found
    obtain ⟨task, -, first⟩ := Option.bind_eq_some_iff.mp found
    have isTask : own.id = task.id := by simpa using List.find?_some first
    rw [isTask]
    exact List.mem_cons.mpr (mem_eraseP_find first there)
  · exact there

theorem select_mem {candidates : List Candidate} {choice : Choice}
    (chosen : choice ∈ select h fleet candidates now r) : ∃ c ∈ candidates, c.id = choice.id := by
  obtain ⟨-, c, inPool, e, is, same⟩ := mem_select chosen
  refine ⟨c, poolOf_subset inPool, ?_⟩
  rw [same]
  exact (Passes.of_consider is).1.symm

/-- With at most half kept for emulated builds while native work waits, more candidates give no higher cap. -/
theorem emulatedCapOf_anti (half : r.emulatedShare ≤ 1 / 2) {fewer more : List Candidate}
    (within : ∀ c ∈ fewer, c ∈ more) : emulatedCapOf h more r ≤ emulatedCapOf h fewer r := by
  unfold emulatedCapOf
  refine Int.mul_le_mul_of_nonneg_right ?_ (Int.natCast_nonneg _)
  have builds : 0 ≤ buildsOf h r := by
    unfold buildsOf
    split
    · split <;> simp
    · exact Int.le_max_left _ _
  have share : ⌈(buildsOf h r : ℚ) * r.emulatedShare⌉ ≤ max 1 (buildsOf h r - 1) := by
    refine Int.ceil_le.mpr ?_
    have bound : (buildsOf h r : ℚ) * r.emulatedShare ≤ buildsOf h r * (1 / 2) :=
      mul_le_mul_of_nonneg_left half (by exact_mod_cast builds)
    rcases le_or_gt (buildsOf h r) 2 with few | many
    · have : (buildsOf h r : ℚ) ≤ 2 := by exact_mod_cast few
      refine le_trans bound (le_trans (by linarith) (Int.cast_le.mpr (Int.le_max_left 1 _)))
    · have : (2 : ℚ) < buildsOf h r := by exact_mod_cast many
      refine le_trans bound (le_trans ?_ (Int.cast_le.mpr (Int.le_max_right 1 _)))
      push_cast
      linarith
  cases inMore : nativeQueued h more r with
  | true =>
      cases inFewer : nativeQueued h fewer r with
      | true => exact le_refl _
      | false => exact max_le (Int.le_max_left _ _) share
  | false =>
      have none_ : nativeQueued h fewer r = false := by
        rw [Bool.eq_false_iff] at inMore ⊢
        intro some_
        obtain ⟨c, member, isNative⟩ := List.any_eq_true.mp some_
        exact inMore (List.any_eq_true.mpr ⟨c, within c member, isNative⟩)
      rw [none_]

/-- Something is chosen when some candidate passes every filter. -/
theorem select_ne_nil_iff {candidates : List Candidate} (awake : h.asleep = false) :
    select h fleet candidates now r ≠ [] ↔ ∃ c ∈ poolOf h fleet candidates now r, ∃ mode byLane,
      Passes h fleet (emulatedCapOf h (poolOf h fleet candidates now r) r) now r c mode byLane := by
  constructor
  · intro some_
    obtain ⟨choice, chosen⟩ := List.exists_mem_of_ne_nil _ some_
    obtain ⟨-, c, inPool, e, is, -⟩ := mem_select chosen
    obtain ⟨-, byLane, passes⟩ := Passes.of_consider is
    exact ⟨c, inPool, _, byLane, passes⟩
  · rintro ⟨c, inPool, mode, byLane, passes⟩
    obtain ⟨e, is, -, -⟩ := passes.consider
    obtain ⟨share, chosen⟩ := select_considered awake inPool is
    exact List.ne_nil_of_mem chosen

theorem ite_some_eq_none {α : Type} {p : Prop} [Decidable p] {a : α} {rest : Option α} :
    (if p then some a else rest) = none ↔ ¬p ∧ rest = none := by
  split <;> simp [*]

/-- What `noRoom` asks of a host: units of the task's or the job's room, the memory offered, an agent slot
for model work, and for a build its disk. -/
theorem noRoom_eq_none_iff {m : Member} (host : m.legacy = false) {held : List Held} {units : Nat}
    {disk : Option ℚ} :
    noRoom m held c units disk r = none ↔
      (units : Int) ≤ (if c.kind.isTask then (roomOf m held r).task else (roomOf m held r).job) ∧
      (m.offer.all fun offer => (units : Int) ≤ offer) = true ∧
      (c.model = true → (held.filter (·.model)).length < m.agentSlots) ∧
      (c.kind = .build → ∃ d, m.disk = some d ∧
        disk.getD 0 + r.floorGb ≤ min d.work d.engine - ((held.filter (·.kind == .build)).map (·.diskGb)).sum) := by
  simp only [noRoom, host, Bool.false_eq_true, if_false, ite_some_eq_none, not_lt, gt_iff_lt]
  refine and_congr_right fun _ => and_congr ?_ (and_congr ?_ ?_)
  · cases m.offer <;> simp
  · cases c.model <;> simp
  · by_cases build : c.kind = .build
    · cases isDisk : m.disk with
      | none => simp [build]
      | some d => simp [build]
    · simp [build]

/-- The lane of a build or a trial: there is one of its architecture, and without a native one it is an
emulated lane that may run what was written. -/
theorem lane_of_byLane {m : Member} (byLane_ : c.kind.byLane = true) {mode : Option Mode} {byLane : Bool}
    (lane : laneFor m c r = some (mode, byLane)) :
    (∃ l ∈ m.lanes, l.arch = c.arch) ∧
      ((m.lanes.any fun l => l.arch == c.arch && l.mode == .native) = false →
        byLane = true ∧ mode = some .emulated ∧ (m.sandbox && contributorsCode c) = false) := by
  simp only [laneFor, byLane_, if_true, List.any_filter] at lane
  cases native : m.lanes.any fun l => l.arch == c.arch && l.mode == .native with
  | true =>
      obtain ⟨l, member, isNative⟩ := List.any_eq_true.mp native
      simp only [Bool.and_eq_true, beq_iff_eq] at isNative
      exact ⟨⟨l, member, isNative.1⟩, by simp⟩
  | false =>
      rw [native, if_neg (by simp)] at lane
      split at lane
      · cases lane
      split at lane
      · cases lane
      rename_i allowed some_
      simp only [Option.some.injEq, Prod.mk.injEq] at lane
      exact ⟨by simpa using some_, fun _ => ⟨lane.2.symm, lane.1.symm, by simpa using allowed⟩⟩

/-- The lane of a host's job with helpers is one of its architecture. -/
theorem lane_of_helper {m : Member} (host : m.legacy = false) (byLane_ : c.kind.byLane = false)
    (helper : c.kind.helper = true) {mode : Option Mode} {byLane : Bool}
    (lane : laneFor m c r = some (mode, byLane)) : ∃ l ∈ m.lanes, l.arch = c.arch := by
  simp only [laneFor, byLane_, host, helper, Bool.false_eq_true, if_false, if_true] at lane
  by_contra none_
  rw [if_pos (by simpa using none_)] at lane
  cases lane

end Chosen

end OmarchyPool.Factory
