/-
# OmarchyPool.Factory.Placement -- where a task may run, asked before anyone claims it

Two questions are asked of the fleet besides `select`.  `nativeCapacity`: would another registration take
this build natively now, so that an emulated lane leaves it for a while.  `placementOf`: which
registrations have a lane for the project's copy of a package once they are idle, so that Review offers
its release to any host when only its requesters' have one.  Each walks the filters of `select` for a
registration that is not claiming.

`native_capacity_taken`: the capacity an emulated lane waits for is one `select` would use.
`held_is_held`: a copy Review calls held is handed to nobody, and one that is handed out was listed.
-/
import Mathlib.Algebra.Order.BigOperators.Group.List
import OmarchyPool.Factory.Leases

namespace OmarchyPool.Factory

set_option autoImplicit false

/-! ## Placement of the project's copy -/

/-- A host's free disk once the builds it holds end. -/
def idleDisk (d : Disk) (held : List Held) : Disk :=
  let budgets := ((held.filter (·.kind == .build)).map (·.diskGb)).sum
  ⟨d.work + budgets, d.engine + budgets⟩

/-- A registration as it claims once it holds nothing; a legacy one as it is. -/
def Member.idle (m : Member) (held : List Held) : Member :=
  if m.legacy then m
  else
    { m with
      offer := none
      kinds := if .build ∈ m.kinds then m.kinds else m.kinds ++ [.build]
      disk := m.disk.map (idleDisk · held) }

/-- Below the minimum, and not for the disk its own builds fill. -/
def Member.stillBelow (m : Member) (held : List Held) : Bool :=
  m.belowMinimum && !(m.belowDisk.any fun least => (m.idle held).disk.any fun free =>
    least.work ≤ free.work && least.engine ≤ free.engine)

/-- Whether a registration has a lane allowed for a task: it could run it once idle. -/
def mayRun (m : Member) (c : Candidate) (now : Int) (r : Rules) (largest : Nat) (held : List Held) : Bool :=
  if !alive m now || !m.mayClaim || m.stillBelow held || m.drained || m.behind || m.asleep ||
      !takes (m.idle held) c then false
  else
    match laneFor m c r with
    | none => false
    | some (mode, byLane) =>
        if byLane && mode == some .emulated && emulationRefuses m c then false
        else
          let size := (sizeOf c largest r).map (·.1)
          (noRoom (m.idle held) [] c (unitsOf c.kind size r) (diskOf c size r) r).isNone

structure Placement where
  others : List WorkerId
  mine : List WorkerId
  held : Bool
  /-- The maintainer the solo exception names, when they asked for the package, and their registrations. -/
  solo : Option (String × List WorkerId)
deriving DecidableEq, Repr

/-- The maintainer of the solo exception, while they are among the requesters. -/
def exempt (c : Candidate) : Option String := c.solo.filter c.requesters.contains

/-- The registrations with an owner that may run the project's copy. -/
def runners (fleet : Fleet) (c : Candidate) (now : Int) (r : Rules) : List Member :=
  if projectCopy c then
    fleet.members.filter fun m => m.owner.isSome &&
      mayRun m c now r (largestSize fleet now r) (heldBy fleet m)
  else []

def placementOf (fleet : Fleet) (c : Candidate) (now : Int) (r : Rules) : Placement :=
  let runners := runners fleet c now r
  let asked := fun m : Member => m.owner.any c.requesters.contains
  let others := (runners.filter (!asked ·)).map (·.id)
  let mine := (runners.filter asked).map (·.id)
  let own := (runners.filter fun m => (exempt c).isSome && m.owner == exempt c).map (·.id)
  { others, mine
    held := projectCopy c && !said c.anyHost && others.isEmpty && own.isEmpty && !mine.isEmpty
    solo := if projectCopy c then ((exempt c).filter (· ≠ "")).map fun maintainer => (maintainer, own) else none }

/-! ## Native capacity -/

/-- A registration that claims: alive, allowed to, and handed work. -/
structure Claiming (m : Member) (now : Int) : Prop where
  alive : alive m now = true
  mayClaim : m.mayClaim = true
  drained : m.drained = false
  behind : m.behind = false
  asleep : m.asleep = false
  belowMinimum : m.belowMinimum = false

/-- A contributor's build whose owner is at the per-owner cap. -/
def atOwnerCap (fleet : Fleet) (c : Candidate) (now : Int) (r : Rules) : Bool :=
  ((cappedOwner c).map (ownersLeased fleet.leases)).any fun n => (ownerCap fleet now r).any (· ≤ n)

section

variable {fleet : Fleet} {now : Int} {r : Rules} {c : Candidate} {m : Member}

/-- A build or a trial runs natively wherever there is a native lane of its architecture. -/
theorem laneFor_native (byLane : c.kind.byLane = true)
    (native : (m.lanes.any fun l => l.arch == c.arch && l.mode == .native) = true) :
    laneFor m c r = some (some .native, true) := by
  have there : ((m.lanes.filter (·.arch == c.arch)).any (·.mode == .native)) = true := by
    rw [List.any_filter]
    exact native
  simp only [laneFor, byLane, there, if_true]

/-- A registration that reserves for nothing, or for the task itself, looks at the task. -/
theorem mem_poolOf (mark : (reservingNow m now).all (·.task == c.id) = true) {candidates : List Candidate}
    (member : c ∈ candidates) : c ∈ poolOf m fleet candidates now r := by
  unfold poolOf
  extract_lets mark_ marked holding
  split
  · refine List.mem_filter.mpr ⟨member, ?_⟩
    rename_i isHolding
    have ismark : ∃ t, mark_ = some t := by
      cases isMark : mark_ with
      | some t => exact ⟨t, rfl⟩
      | none =>
          unfold holding marked at isHolding
          rw [isMark] at isHolding
          cases isHolding
    obtain ⟨t, isMark⟩ := ismark
    have reserving : reservingNow m now = some t := by
      unfold mark_ at isMark
      split at isMark
      · cases isMark
      · exact isMark
    rw [reserving] at mark
    rw [isMark]
    simpa using Or.inl mark
  · exact member

/-- What a build or a trial needs on a native lane. -/
theorem Passes.of_native (cap : Int) (byLane : c.kind.byLane = true) (taken : Factory.takes m c = true)
    (notRequester : requesterHost m c = false)
    (native : (m.lanes.any fun l => l.arch == c.arch && l.mode == .native) = true)
    (room : noRoom m (heldBy fleet m) c (unitsOf c.kind ((sizeOf c (largestSize fleet now r) r).map (·.1)) r)
      (diskOf c ((sizeOf c (largestSize fleet now r) r).map (·.1)) r) r = none)
    (belowCap : atOwnerCap fleet c now r = false) :
    Passes m fleet cap now r c (some .native) true := by
  have notAudit : (c.kind == .audit) = false := by cases isKind : c.kind <;> simp_all [TaskKind.byLane]
  exact
    { takes := taken
      requester := notRequester
      model := by rw [notAudit]; rfl
      elsewhere := by rw [notAudit]; rfl
      lane := laneFor_native byLane native
      room := room
      refuses := rfl
      waits := rfl
      share := rfl
      owner := belowCap }

/-- Where a build or a trial has native capacity besides a registration, another one that claims would be
handed it on its native lane, whatever else is queued, unless its owner is at the cap. -/
theorem native_capacity_taken {except : WorkerId} (byLane : c.kind.byLane = true)
    (capacity : nativeCapacity fleet c now r except = true) :
    ∃ x ∈ fleet.members, x.id ≠ except ∧ Claiming x now ∧
      (∃ lane ∈ x.lanes, lane.arch = c.arch ∧ lane.mode = .native) ∧
      (atOwnerCap fleet c now r = true ∨ ∀ candidates, c ∈ candidates →
        ∃ choice ∈ select x fleet candidates now r, choice.id = c.id ∧ choice.lane = some .native) := by
  unfold nativeCapacity at capacity
  obtain ⟨x, member, holds⟩ := List.any_eq_true.mp capacity
  simp only [Bool.and_eq_true, bne_iff_ne, Bool.not_eq_true', Option.isNone_iff_eq_none, counts] at holds
  obtain ⟨⟨⟨⟨⟨⟨⟨⟨⟨other, ⟨⟨alive, mayClaim⟩, above⟩, awake⟩, notDrained⟩, notBehind⟩, native⟩, isTaken⟩,
    notRequester⟩, mark⟩, -⟩, room⟩ := holds
  refine ⟨x, member, other, ⟨alive, mayClaim, notDrained, notBehind, awake, above⟩, by simpa using native, ?_⟩
  cases atCap : atOwnerCap fleet c now r with
  | true => exact .inl rfl
  | false =>
      refine .inr fun candidates inList => ?_
      have passes := Passes.of_native (emulatedCapOf x (poolOf x fleet candidates now r) r) byLane isTaken notRequester
        native room atCap
      obtain ⟨e, is, sameId, lane⟩ := passes.consider
      obtain ⟨share, chosen⟩ := select_considered awake (mem_poolOf mark inList) is
      exact ⟨_, chosen, sameId, lane⟩

end

/-- A build of the project's own recipe, queued now. -/
def recipeBuild : Candidate where
  id := 1
  name := "zed"
  kind := .build
  arch := .x86_64
  trust := .project
  owner := none
  priority := 100
  queuedAt := 0
  pinnedTo := none
  needsNative := false
  refused4k := false
  model := false
  size := none
  diskGb := none
  nativeMs := none
  reservedAt := none
  jobArch := none
  publishBound := false
  requesters := []
  anyHost := none
  solo := none
  builtBy := none
  builtWith := none
  builtOn := none

theorem native_capacity_taken_recipeBuild :
    nativeCapacity ⟨[nativeHost "a" 5], [], []⟩ recipeBuild 0 signedRules "b" = true ∧
    ∃ x ∈ (⟨[nativeHost "a" 5], [], []⟩ : Fleet).members, x.id ≠ "b" ∧ Claiming x 0 ∧
      (∃ lane ∈ x.lanes, lane.arch = recipeBuild.arch ∧ lane.mode = .native) ∧
      (atOwnerCap ⟨[nativeHost "a" 5], [], []⟩ recipeBuild 0 signedRules = true ∨
        ∀ candidates, recipeBuild ∈ candidates →
          ∃ choice ∈ select x ⟨[nativeHost "a" 5], [], []⟩ candidates 0 signedRules,
            choice.id = recipeBuild.id ∧ choice.lane = some .native) :=
  ⟨by decide +kernel, native_capacity_taken (by decide) (by decide +kernel)⟩

/-! ## Held copies -/

section

variable {fleet : Fleet} {now : Int} {r : Rules} {c : Candidate} {m : Member}

/-- Leases as a claim writes them: of no less than nothing. -/
def Fleet.Counted (fleet : Fleet) : Prop := ∀ l ∈ fleet.leases, 0 ≤ l.units ∧ 0 ≤ l.diskGb

theorem heldBy_subset {l : Held} (member : l ∈ heldBy fleet m) : l ∈ fleet.leases := by
  unfold heldBy at member
  split at member
  · cases member
  · exact List.mem_of_mem_filter member

/-- Once idle a registration takes what it takes now. -/
theorem takes_idle (held : List Held) (isTaken : takes m c = true) : takes (m.idle held) c = true := by
  unfold Member.idle
  split
  · exact isTaken
  · simp only [takes, Bool.and_eq_true, List.contains_eq_mem, decide_eq_true_eq] at isTaken ⊢
    refine ⟨⟨⟨⟨?_, isTaken.1.1.1.2⟩, isTaken.1.1.2⟩, isTaken.1.2⟩, isTaken.2⟩
    split
    · exact isTaken.1.1.1.1
    · exact List.mem_append_left _ isTaken.1.1.1.1

theorem sum_units_nonneg {held : List Held} (whole : ∀ l ∈ held, 0 ≤ l.units ∧ 0 ≤ l.diskGb)
    (keep : Held → Bool) : 0 ≤ ((held.filter keep).map (·.units)).sum ∧
      0 ≤ ((held.filter keep).map (·.diskGb)).sum := by
  constructor <;> refine List.sum_nonneg fun x member => ?_
  · obtain ⟨l, inHeld, rfl⟩ := List.mem_map.mp member
    exact (whole l (List.mem_of_mem_filter inHeld)).1
  · obtain ⟨l, inHeld, rfl⟩ := List.mem_map.mp member
    exact (whole l (List.mem_of_mem_filter inHeld)).2

/-- Once idle a registration has room for what it has room for now. -/
theorem noRoom_idle {held : List Held} (whole : ∀ l ∈ held, 0 ≤ l.units ∧ 0 ≤ l.diskGb) {units : Nat}
    {disk : Option ℚ} (room : noRoom m held c units disk r = none) :
    noRoom (m.idle held) [] c units disk r = none := by
  cases legacy : m.legacy with
  | true =>
      simp only [Member.idle, noRoom, legacy, if_true] at room ⊢
      exact room
  | false =>
      have host : (m.idle held).legacy = false := by
        simp only [Member.idle, legacy, Bool.false_eq_true, if_false]
      rw [noRoom_eq_none_iff legacy] at room
      rw [noRoom_eq_none_iff host]
      obtain ⟨fits, -, slot, onDisk⟩ := room
      have tasks := (sum_units_nonneg whole (·.kind.isTask)).1
      have jobs := (sum_units_nonneg whole (!·.kind.isTask)).1
      have budgets := (sum_units_nonneg whole (·.kind == .build)).2
      simp only [Member.idle, legacy, Bool.false_eq_true, if_false]
      refine ⟨?_, rfl, fun model => by have := slot model; simp; omega, fun build => ?_⟩
      · simp only [roomOf, taskUnits, jobUnits] at fits ⊢
        split at fits
        · rw [if_pos ‹_›]
          simp
          omega
        · rw [if_neg ‹_›]
          simp
          omega
      · obtain ⟨d, isDisk, within⟩ := onDisk build
        refine ⟨idleDisk d held, by rw [isDisk]; rfl, ?_⟩
        simp only [idleDisk, List.filter_nil, List.map_nil, List.sum_nil, min_add_add_right, sub_zero]
        linarith

/-- Whoever is handed a task has a lane allowed for it. -/
theorem mayRun_of_passes (whole : fleet.Counted) (claiming : Claiming m now) {cap : Int} {mode : Option Mode}
    {byLane : Bool} (passes : Passes m fleet cap now r c mode byLane) :
    mayRun m c now r (largestSize fleet now r) (heldBy fleet m) = true := by
  have below : m.stillBelow (heldBy fleet m) = false := by
    simp [Member.stillBelow, claiming.belowMinimum]
  have room := noRoom_idle (fun l member => whole l (heldBy_subset member)) passes.room
  unfold mayRun
  rw [if_neg (by simp [claiming.alive, claiming.mayClaim, below, claiming.drained, claiming.behind,
    claiming.asleep, takes_idle (heldBy fleet m) passes.takes]), passes.lane]
  simp only [passes.refuses, Bool.false_eq_true, if_false, room, Option.isNone_none]

/-- A registration that is handed the project's copy may run it; and where its owner asked for the package,
the copy was released to any host or is the solo maintainer's own. -/
theorem runs_of_passes (copy : projectCopy c = true) (whole : fleet.Counted) (member : m ∈ fleet.members)
    (owned : m.owner.isSome = true) (claiming : Claiming m now) {cap : Int} {mode : Option Mode} {byLane : Bool}
    (passes : Passes m fleet cap now r c mode byLane) :
    m ∈ runners fleet c now r ∧ (m.owner.any c.requesters.contains = true →
      said c.anyHost = true ∨ m.owner = c.solo) := by
  constructor
  · rw [runners, if_pos copy]
    exact List.mem_filter.mpr ⟨member, by simp [owned, mayRun_of_passes whole claiming passes]⟩
  · intro asked
    obtain ⟨owner, isOwner⟩ := Option.isSome_iff_exists.mp owned
    rw [isOwner, Option.any_some] at asked
    have free := passes.requester
    simp only [requesterHost, copy, isOwner, Option.any_some, asked, Bool.true_and, Bool.and_true,
      Bool.and_eq_false_iff, Bool.not_eq_false', bne_eq_false_iff_eq] at free
    rcases free with released | solo
    · exact .inl released
    · exact .inr (by rw [isOwner, solo])

/-- Of a copy that is held every runner's owner asked for it, it was not released, and none of them is the
solo maintainer. -/
theorem held_runner (held : (placementOf fleet c now r).held = true) (runs : m ∈ runners fleet c now r) :
    m.owner.any c.requesters.contains = true ∧ said c.anyHost = false ∧ m.owner ≠ c.solo := by
  simp only [placementOf, Bool.and_eq_true, Bool.not_eq_true', List.isEmpty_iff, List.map_eq_nil_iff,
    List.filter_eq_nil_iff] at held
  obtain ⟨⟨⟨⟨-, notReleased⟩, noOthers⟩, noOwn⟩, -⟩ := held
  have asked : m.owner.any c.requesters.contains = true := by simpa using noOthers m runs
  refine ⟨asked, notReleased, fun isSolo => noOwn m runs ?_⟩
  rw [isSolo] at asked
  cases solo : c.solo with
  | none =>
      rw [solo] at asked
      cases asked
  | some maintainer =>
      rw [solo, Option.any_some] at asked
      have isExempt : exempt c = some maintainer := by rw [exempt, solo, Option.filter_some, if_pos asked]
      simp [isExempt, isSolo, solo]

/-- A choice of the project's copy is the copy's own, when its id names nothing else among the candidates. -/
theorem passes_of_chosen {candidates : List Candidate} (own : ∀ c' ∈ candidates, c'.id = c.id → c' = c)
    {choice : Choice} (chosen : choice ∈ select m fleet candidates now r) (same : choice.id = c.id) :
    ∃ cap mode byLane, Passes m fleet cap now r c mode byLane := by
  obtain ⟨-, c', inPool, e, is, isChoice⟩ := mem_select chosen
  obtain ⟨sameId, byLane, passes⟩ := Passes.of_consider is
  have isCopy : c' = c := by
    refine own c' (poolOf_subset inPool) ?_
    rw [← sameId, ← same, isChoice]
  subst isCopy
  exact ⟨_, _, byLane, passes⟩

/-- Review's placement and the claim's selection agree, over any fleet and for every registration with an
owner that claims: a copy that is held is handed to none of them, and one that is handed to one of them was
listed with it. -/
theorem held_is_held (copy : projectCopy c = true) (whole : fleet.Counted) (member : m ∈ fleet.members)
    (owned : m.owner.isSome = true) (claiming : Claiming m now) {candidates : List Candidate}
    (own : ∀ c' ∈ candidates, c'.id = c.id → c' = c) :
    ((placementOf fleet c now r).held = true → ∀ choice ∈ select m fleet candidates now r, choice.id ≠ c.id) ∧
    ∀ choice ∈ select m fleet candidates now r, choice.id = c.id →
      m.id ∈ (placementOf fleet c now r).others ∨
        m.id ∈ (placementOf fleet c now r).mine ∧ (said c.anyHost = true ∨ m.owner = c.solo) := by
  constructor
  · intro held choice chosen same
    obtain ⟨cap, mode, byLane, passes⟩ := passes_of_chosen own chosen same
    obtain ⟨runs, released⟩ := runs_of_passes copy whole member owned claiming passes
    obtain ⟨asked, notReleased, notSolo⟩ := held_runner held runs
    rcases released asked with isReleased | isSolo
    · rw [notReleased] at isReleased
      cases isReleased
    · exact notSolo isSolo
  · intro choice chosen same
    obtain ⟨cap, mode, byLane, passes⟩ := passes_of_chosen own chosen same
    obtain ⟨runs, released⟩ := runs_of_passes copy whole member owned claiming passes
    cases asked : m.owner.any c.requesters.contains with
    | true =>
        exact .inr ⟨List.mem_map.mpr ⟨m, List.mem_filter.mpr ⟨runs, asked⟩, rfl⟩, released asked⟩
    | false => exact .inl (List.mem_map.mpr ⟨m, List.mem_filter.mpr ⟨runs, by simp [asked]⟩, rfl⟩)

end

/-- The project's copy of a package ann asked for, and the one host alive, ann's; and the same while ann is
the one maintainer. -/
def copyOfAnns : Candidate := { recipeBuild with publishBound := true, requesters := ["ann"] }

def soloCopy : Candidate := { copyOfAnns with solo := some "ann" }

def annsHost : Member := { nativeHost "a" 5 with owner := some "ann" }

def annsFleet : Fleet := ⟨[annsHost], [], []⟩

theorem held_is_held_annsFleet :
    (placementOf annsFleet copyOfAnns 0 signedRules).held = true ∧
    (∀ choice ∈ select annsHost annsFleet [copyOfAnns] 0 signedRules, choice.id ≠ copyOfAnns.id) ∧
    (select annsHost annsFleet [soloCopy] 0 signedRules).map (·.id) = [soloCopy.id] ∧
    ∀ choice ∈ select annsHost annsFleet [soloCopy] 0 signedRules, choice.id = soloCopy.id →
      annsHost.id ∈ (placementOf annsFleet soloCopy 0 signedRules).others ∨
        annsHost.id ∈ (placementOf annsFleet soloCopy 0 signedRules).mine ∧
          (said soloCopy.anyHost = true ∨ annsHost.owner = soloCopy.solo) := by
  have claiming : Claiming annsHost 0 := ⟨by decide, rfl, rfl, rfl, rfl, rfl⟩
  have counted : annsFleet.Counted := by simp [Fleet.Counted, annsFleet]
  have member : annsHost ∈ annsFleet.members := by simp [annsFleet]
  have held : (placementOf annsFleet copyOfAnns 0 signedRules).held = true := by decide +kernel
  refine ⟨held, (held_is_held rfl counted member rfl claiming (by simp)).1 held, by decide +kernel, ?_⟩
  exact (held_is_held rfl counted member rfl claiming (by simp)).2

end OmarchyPool.Factory
