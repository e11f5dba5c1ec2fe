/-
# OmarchyPool.Factory.Reservation -- a host is kept for a large build it can take

`reserve`, decided at a host's claim: the marks that end, and the host that keeps its units for the
oldest large build that fits nobody now.  It asks `select` twice, of registrations weighed as not
reserving and without a claim's memory offer (`Member.weighed`): could the host lease the build if it
held nothing, and does it fit anyone as things are.

`reserve_sets`: after the clears no mark stands, the build fits nobody, and its host, once marked and
idle, takes it before anything else that waits -- when its claim offers the build's memory.  `reserve`
does not look at that offer and `select` does: a host marked at a claim that offers less takes other
work (`reserve_beyond_offer`).
-/
import OmarchyPool.Factory.Placement
import OmarchyPool.Factory.RowOrder

namespace OmarchyPool.Factory

set_option autoImplicit false

def reserveAfterMs : Int := 30 * minute

/-- A task's reservation lapsed less than `reserveAfterMs` ago. -/
def cooling (reservedAt : Option Int) (now : Int) : Bool :=
  reservedAt.any fun since => since ≤ now - reserveForMs && since > now - reserveForMs - reserveAfterMs

/-- The marks to write: a host's new one, and the hosts whose mark ends. -/
structure Marks where
  set : Option (WorkerId × TaskId)
  clear : List WorkerId
deriving DecidableEq, Repr

/-- A mark holds while it is not spent, its task waits, and its host is alive and awake. -/
def markHolds (m : Member) (queued : TaskId → Bool) (now : Int) : Bool :=
  (reservingNow m now).any fun mark => queued mark.task && alive m now && !m.asleep

/-- A registration weighed as not reserving, and without a claim's memory offer. -/
def Member.weighed (m : Member) : Member := { m with reserving := none, offer := none }

/-- The registrations alive that claim. -/
def claiming (fleet : Fleet) (now : Int) : List Member :=
  (fleet.members.filter fun m => counts m now && !m.drained && !m.behind).map Member.weighed

/-- The leases without those of one registration. -/
def withoutLeases (leases : List Held) (host : WorkerId) : List Held := leases.filter (·.byWorker != host)

/-- The hosts that could lease a build once their units are free. -/
def couldLease (fleet : Fleet) (c : Candidate) (now : Int) (r : Rules) : List Member :=
  (claiming fleet now).filter fun m => !m.legacy &&
    !(select m { members := fleet.members, leases := withoutLeases fleet.leases m.id } [c] now r).isEmpty

/-- A registration fits it now: it is leased at its next claim. -/
def fitsNow (fleet : Fleet) (c : Candidate) (now : Int) (r : Rules) : Bool :=
  (claiming fleet now).any fun m => !(select m fleet [c] now r).isEmpty

/-- The most free units first, then the id. -/
def freer (fleet : Fleet) (r : Rules) (a b : Member) : Bool :=
  let free := fun m : Member => (roomOf m (heldBy fleet m) r).task
  free b < free a || free a == free b && a.id ≤ b.id

/-- The first of the oldest builds a host could be kept for decides. -/
def weigh (fleet : Fleet) (now : Int) (r : Rules) : List Candidate → Option (WorkerId × TaskId)
  | [] => none
  | c :: oldest =>
      if c.kind ≠ .build || now - c.queuedAt ≤ reserveAfterMs then weigh fleet now r oldest
      else if cooling c.reservedAt now then weigh fleet now r oldest
      -- A build its owner's cap holds back could not be leased when the units free up.
      else if atOwnerCap fleet c now r then weigh fleet now r oldest
      else if unitsOf c.kind ((sizeOf c (largestSize fleet now r) r).map (·.1)) r ≤ r.buildPerSize then
        weigh fleet now r oldest
      else
        match (couldLease fleet c now r).insertionSort fun a b => freer fleet r a b with
        | [] => weigh fleet now r oldest
        | best :: _ => if fitsNow fleet c now r then none else some (best.id, c.id)

def reserve (fleet : Fleet) (oldest : List Candidate) (queued : TaskId → Bool) (now : Int) (r : Rules) : Marks :=
  let marked := fleet.members.filter (·.reserving.isSome)
  let clear := (marked.filter fun m => !markHolds m queued now).map (·.id)
  if marked.any fun m => markHolds m queued now then { set := none, clear }
  else { set := weigh fleet now r oldest, clear }

/-! ## The marks written -/

def Member.clears (clear : List WorkerId) (m : Member) : Member :=
  if clear.contains m.id then { m with reserving := none } else m

def Member.marks (host : WorkerId) (mark : Mark) (m : Member) : Member :=
  if m.id == host then { m with reserving := some mark } else m

/-- The fleet after the marks that end are cleared. -/
def Fleet.cleared (fleet : Fleet) (clear : List WorkerId) : Fleet :=
  { fleet with members := fleet.members.map (Member.clears clear) }

/-- And after a host is marked. -/
def Fleet.marked (fleet : Fleet) (host : WorkerId) (mark : Mark) : Fleet :=
  { fleet with members := fleet.members.map (Member.marks host mark) }

/-- The fleet once a registration holds nothing. -/
def Fleet.without (fleet : Fleet) (host : WorkerId) : Fleet :=
  { fleet with leases := withoutLeases fleet.leases host }

/-! ## What a mark changes -/

/-- Two members alike but for the marks they carry. -/
def Member.SameButMark (m m' : Member) : Prop := ∃ mark, m' = { m with reserving := mark }

theorem Member.sameButMark_clears (clear : List WorkerId) (m : Member) : m.SameButMark (m.clears clear) := by
  unfold Member.clears
  split
  · exact ⟨none, rfl⟩
  · exact ⟨m.reserving, rfl⟩

theorem Member.sameButMark_marks (host : WorkerId) (mark : Mark) (m : Member) :
    m.SameButMark (m.marks host mark) := by
  unfold Member.marks
  split
  · exact ⟨some mark, rfl⟩
  · exact ⟨m.reserving, rfl⟩

/-- The same registrations, some with other marks. -/
def Fleet.Remarks (fleet fleet' : Fleet) : Prop :=
  ∃ remark : Member → Member, (∀ m : Member, m.SameButMark (remark m)) ∧
    fleet'.members = fleet.members.map remark

theorem Fleet.remarks_written (fleet : Fleet) (clear : List WorkerId) (host : WorkerId) (mark : Mark) :
    fleet.Remarks (((fleet.cleared clear).marked host mark).without host) := by
  refine ⟨fun m => (m.clears clear).marks host mark, fun m => ?_, ?_⟩
  · obtain ⟨_, cleared⟩ := m.sameButMark_clears clear
    obtain ⟨last, marked⟩ := (m.clears clear).sameButMark_marks host mark
    refine ⟨last, ?_⟩
    show (m.clears clear).marks host mark = _
    rw [marked, cleared]
  · exact List.map_map

section Remarked

variable {fleet fleet' : Fleet} (same : fleet.Remarks fleet') {now : Int} {r : Rules} {c : Candidate}

include same

theorem Fleet.Remarks.largestSize : Factory.largestSize fleet' now r = Factory.largestSize fleet now r := by
  obtain ⟨remark, only, members⟩ := same
  unfold Factory.largestSize
  rw [members, List.foldl_map]
  congr 1
  funext best m
  obtain ⟨_, is⟩ := only m
  rw [is]
  rfl

theorem Fleet.Remarks.ownerCap : Factory.ownerCap fleet' now r = Factory.ownerCap fleet now r := by
  obtain ⟨remark, only, members⟩ := same
  have total : totalBuilds fleet'.members now r = totalBuilds fleet.members now r := by
    unfold totalBuilds
    rw [members, List.map_map]
    congr 2
    funext m
    obtain ⟨_, is⟩ := only m
    show (if counts (remark m) now then buildsOf (remark m) r else 0) = _
    rw [is]
    rfl
  unfold Factory.ownerCap
  rw [total]

end Remarked

section

variable {fleet : Fleet} {now : Int} {r : Rules} {c : Candidate} {m : Member}

theorem noRoom_weighed {held : List Held} {units : Nat} {disk : Option ℚ}
    (room : noRoom m held c units disk r = none) : noRoom m.weighed held c units disk r = none := by
  cases host : m.legacy with
  | true =>
      unfold noRoom at room ⊢
      rw [if_pos host] at room
      rw [if_pos (show m.weighed.legacy = true from host)]
      exact room
  | false =>
      obtain ⟨units_, -, rest⟩ := (noRoom_eq_none_iff host).mp room
      exact (noRoom_eq_none_iff (show m.weighed.legacy = false from host)).mpr ⟨units_, rfl, rest⟩

/-- One candidate alone: whatever the mark, it is what a claim looks at. -/
theorem poolOf_alone (m : Member) (fleet : Fleet) (c : Candidate) (now : Int) (r : Rules) :
    poolOf m fleet [c] now r = [c] := by
  unfold poolOf
  extract_lets mark marked holding
  split
  · rename_i isHolding
    have isMarked : mark.any (·.task == c.id) = true := by
      cases isMark : mark with
      | none => simp [holding, marked, isMark] at isHolding
      | some own =>
          by_cases same : c.id = own.task
          · simp [same]
          · simp [holding, marked, isMark, same] at isHolding
    simp [isMarked]
  · rfl

/-- What is handed one candidate as it is, is handed it when weighed. -/
theorem select_weighed (chosen : select m fleet [c] now r ≠ []) : select m.weighed fleet [c] now r ≠ [] := by
  obtain ⟨choice, member⟩ := List.exists_mem_of_ne_nil _ chosen
  have awake := (mem_select member).1
  obtain ⟨c', inPool, mode, byLane, passes⟩ := (select_ne_nil_iff awake).mp chosen
  rw [poolOf_alone] at inPool passes
  obtain rfl := List.mem_singleton.mp inPool
  refine (select_ne_nil_iff (show m.weighed.asleep = false from awake)).mpr ⟨c', ?_, mode, byLane, ?_⟩
  · rw [poolOf_alone]
    exact List.mem_singleton_self _
  · rw [poolOf_alone]
    exact
      { takes := passes.takes
        requester := passes.requester
        model := passes.model
        elsewhere := passes.elsewhere
        lane := passes.lane
        room := noRoom_weighed passes.room
        refuses := passes.refuses
        waits := passes.waits
        share := passes.share
        owner := passes.owner }

theorem mem_claiming {m : Member} (member : m ∈ fleet.members) (claims : Claiming m now) :
    m.weighed ∈ claiming fleet now := by
  refine List.mem_map.mpr ⟨m, List.mem_filter.mpr ⟨member, ?_⟩, rfl⟩
  simp [counts, claims.alive, claims.mayClaim, claims.belowMinimum, claims.asleep, claims.drained, claims.behind]

/-- A build that fits nobody is in nobody's selection. -/
theorem select_of_fitsNow (fits : fitsNow fleet c now r = false) {m : Member} (member : m ∈ fleet.members)
    (claims : Claiming m now) : select m fleet [c] now r = [] := by
  by_contra chosen
  have none_ := List.any_eq_false.mp fits m.weighed (mem_claiming member claims)
  exact select_weighed chosen (by simpa using none_)

/-- The task a host reserves for goes first when the host takes it. -/
theorem select_marked_first {h : Member} {candidates : List Candidate} {mark : Mark} (host : h.legacy = false)
    (isMark : reservingNow h now = some mark) (there : ∃ c ∈ candidates, c.id = mark.task) {choice : Choice}
    (chosen : choice ∈ select h fleet candidates now r) (isTask : choice.id = mark.task) :
    ∃ first rest, select h fleet candidates now r = first :: rest ∧ first.id = mark.task := by
  obtain ⟨c, inList, sameId⟩ := there
  have found : ∃ c, markedTask h candidates now = some c ∧ c.id = mark.task := by
    unfold markedTask
    rw [if_neg (by simp [host]), isMark, Option.bind_some]
    cases first : candidates.find? (·.id == mark.task) with
    | none => exact absurd sameId (by simpa using List.find?_eq_none.mp first c inList)
    | some c' => exact ⟨c', rfl, by simpa using List.find?_some first⟩
  obtain ⟨own, isOwn, ownId⟩ := found
  have awake := (mem_select chosen).1
  rw [select_eq, awake, if_neg (by simp), isOwn] at chosen ⊢
  unfold arrange at chosen ⊢
  extract_lets _ _ order at chosen
  extract_lets
  rw [Option.bind_some] at chosen ⊢
  cases first : order.find? (·.id == own.id) with
  | some lease =>
      refine ⟨lease, _, rfl, ?_⟩
      have isOwn : lease.id = own.id := by simpa using List.find?_some first
      rw [isOwn, ownId]
  | none =>
      rw [first] at chosen
      exact absurd (isTask.trans ownId.symm) (by simpa using List.find?_eq_none.mp first choice chosen)

/-! ## The reservation -/

/-- A mark is set for one of the oldest builds, when it fits nobody, on a host that could lease it. -/
theorem weigh_some {oldest : List Candidate} {host : WorkerId} {task : TaskId}
    (set : weigh fleet now r oldest = some (host, task)) :
    ∃ c ∈ oldest, c.id = task ∧ c.kind = .build ∧ atOwnerCap fleet c now r = false ∧ fitsNow fleet c now r = false ∧
      ∃ best ∈ couldLease fleet c now r, best.id = host := by
  induction oldest with
  | nil => cases set
  | cons c oldest ih =>
      have later : weigh fleet now r oldest = some (host, task) → ∃ d ∈ c :: oldest, d.id = task ∧ d.kind = .build ∧
          atOwnerCap fleet d now r = false ∧ fitsNow fleet d now r = false ∧
          ∃ best ∈ couldLease fleet d now r, best.id = host := fun set => by
        obtain ⟨d, member, rest⟩ := ih set
        exact ⟨d, List.mem_cons_of_mem c member, rest⟩
      unfold weigh at set
      split at set
      · exact later set
      rename_i old
      split at set
      · exact later set
      split at set
      · exact later set
      rename_i belowCap
      split at set
      · exact later set
      split at set
      · exact later set
      · rename_i best _ sorted
        split at set
        · cases set
        rename_i fits
        cases set
        refine ⟨c, List.mem_cons_self, rfl, ?_, by simpa using belowCap, by simpa using fits, best, ?_, rfl⟩
        · by_contra notBuild
          simp [notBuild] at old
        · have inSorted : best ∈ (couldLease fleet c now r).insertionSort fun a b => freer fleet r a b := by
            rw [sorted]
            exact List.mem_cons_self
          exact (List.mem_insertionSort _).mp inSorted

/-- A build nobody claiming fits has no native capacity, whatever marks the others carry and whatever the
host that is asked holds. -/
theorem nativeCapacity_written {fleet' : Fleet} (same : fleet.Remarks fleet') {host : WorkerId}
    (leases : fleet'.leases = withoutLeases fleet.leases host) (build : c.kind = .build)
    (belowCap : atOwnerCap fleet c now r = false) (fits : fitsNow fleet c now r = false) :
    nativeCapacity fleet' c now r host = false := by
  rw [Bool.eq_false_iff]
  intro capacity
  unfold nativeCapacity at capacity
  obtain ⟨x', member, holds⟩ := List.any_eq_true.mp capacity
  obtain ⟨remark, only, members⟩ := id same
  rw [members] at member
  obtain ⟨x, inFleet, isRemarked⟩ := List.mem_map.mp member
  obtain ⟨mark, isX⟩ := only x
  rw [isRemarked] at isX
  subst isX
  simp only [Bool.and_eq_true, bne_iff_ne, Bool.not_eq_true', Option.isNone_iff_eq_none, counts] at holds
  obtain ⟨⟨⟨⟨⟨⟨⟨⟨⟨other, ⟨⟨alive, mayClaim⟩, above⟩, awake⟩, notDrained⟩, notBehind⟩, native⟩, isTaken⟩,
    notRequester⟩, -⟩, -⟩, room⟩ := holds
  have held : heldBy fleet' { x with reserving := mark } = heldBy fleet x := by
    unfold heldBy
    rw [leases]
    unfold withoutLeases
    rw [List.filter_filter]
    congr 1
    refine List.filter_congr fun l _ => ?_
    by_cases own : l.byWorker = x.id
    · simp [own, other]
    · simp [own]
  rw [held, same.largestSize] at room
  have byLane : c.kind.byLane = true := by rw [build]; rfl
  have passes : Passes x.weighed fleet (emulatedCapOf x.weighed (poolOf x.weighed fleet [c] now r) r) now r c
      (some .native) true :=
    Passes.of_native _ byLane isTaken notRequester native (noRoom_weighed (m := x) room) belowCap
  have chosen : select x.weighed fleet [c] now r ≠ [] :=
    (select_ne_nil_iff (show x.weighed.asleep = false from awake)).mpr
      ⟨c, by rw [poolOf_alone]; exact List.mem_singleton_self _, _, _, passes⟩
  have none_ := List.any_eq_false.mp fits x.weighed
    (mem_claiming inFleet ⟨alive, mayClaim, notDrained, notBehind, awake, above⟩)
  exact chosen (by simpa using none_)

/-- A host that could lease a build if it held nothing passes every filter once it is marked and idle: what it
may lack then is the memory its claim offers. -/
theorem Passes.of_couldLease {fleet' : Fleet} (same : fleet.Remarks fleet') {h : Member}
    (leases : fleet'.leases = withoutLeases fleet.leases h.id) (build : c.kind = .build)
    (belowCap : atOwnerCap fleet c now r = false) (fits : fitsNow fleet c now r = false)
    (could : h.weighed ∈ couldLease fleet c now r)
    (offers : (h.offer.all fun offer =>
      (unitsOf c.kind ((sizeOf c (largestSize fleet now r) r).map (·.1)) r : Int) ≤ offer) = true)
    (mark : Option Mark) (cap : Int) :
    ∃ mode byLane, Passes { h with reserving := mark } fleet' cap now r c mode byLane := by
  obtain ⟨-, leased⟩ := List.mem_filter.mp could
  simp only [Bool.and_eq_true, Bool.not_eq_true', List.isEmpty_eq_false_iff] at leased
  obtain ⟨host, leased⟩ := leased
  obtain ⟨choice, chosen⟩ := List.exists_mem_of_ne_nil _ leased
  obtain ⟨c', inPool, mode, byLane, passes⟩ := (select_ne_nil_iff (mem_select chosen).1).mp leased
  obtain rfl := List.mem_singleton.mp (poolOf_subset inPool)
  have notAudit : (c'.kind == .audit) = false := by rw [build]; rfl
  have nothing : heldBy fleet' { h with reserving := mark } = [] := by
    unfold heldBy
    rw [leases, if_neg (show ¬h.legacy = true by rw [show h.legacy = false from host]; simp)]
    unfold withoutLeases
    rw [List.filter_filter, List.filter_eq_nil_iff]
    intro l _
    simp
  have idle : emulatedHeldOf { h with reserving := mark } fleet' = 0 := by
    unfold emulatedHeldOf
    rw [nothing]
    rfl
  have room := passes.room
  have nothingBefore : heldBy { members := fleet.members, leases := withoutLeases fleet.leases h.weighed.id }
      h.weighed = [] := by
    rw [← nothing]
    unfold heldBy
    rw [leases]
    rfl
  rw [nothingBefore] at room
  obtain ⟨units, -, rest⟩ := (noRoom_eq_none_iff host).mp room
  refine ⟨mode, byLane, ?_⟩
  exact
    { takes := passes.takes
      requester := passes.requester
      model := by rw [notAudit]; rfl
      elsewhere := by rw [notAudit]; rfl
      lane := passes.lane
      room := by
        rw [nothing, same.largestSize]
        exact (noRoom_eq_none_iff (show h.legacy = false from host)).mpr ⟨units, offers, rest⟩
      refuses := passes.refuses
      waits := by
        rw [nativeCapacity_written same leases build belowCap fits]
        simp
      share := by
        rw [idle]
        simp
      owner := by
        have owner := passes.owner
        rw [leases, same.ownerCap]
        exact owner }

/-- A host marked for a build that passes every filter takes it first. -/
theorem select_first_of_passes {h : Member} (host : h.legacy = false) (awake : h.asleep = false)
    (passes : ∀ cap, ∃ mode byLane, Passes { h with reserving := some ⟨c.id, now⟩ } fleet cap now r c mode byLane)
    {candidates : List Candidate} (member : c ∈ candidates) :
    ∃ first rest, select { h with reserving := some ⟨c.id, now⟩ } fleet candidates now r = first :: rest ∧
      first.id = c.id := by
  have isMark : reservingNow { h with reserving := some ⟨c.id, now⟩ } now = some ⟨c.id, now⟩ := by
    simp [reservingNow, Option.filter, reserveForMs, minute]
  obtain ⟨mode, byLane, passes⟩ := passes
    (emulatedCapOf { h with reserving := some ⟨c.id, now⟩ }
      (poolOf { h with reserving := some ⟨c.id, now⟩ } fleet candidates now r) r)
  generalize marked : { h with reserving := some ⟨c.id, now⟩ } = h' at isMark passes
  have legacy' : h'.legacy = false := by
    rw [← marked]
    exact host
  have awake' : h'.asleep = false := by
    rw [← marked]
    exact awake
  have inPool : c ∈ poolOf h' fleet candidates now r := mem_poolOf (by rw [isMark]; simp) member
  obtain ⟨e, is, sameTask, -⟩ := passes.consider
  obtain ⟨share, chosen⟩ := select_considered awake' inPool is
  exact select_marked_first legacy' isMark ⟨c, member, rfl⟩ chosen sameTask

/-- After the clears no mark that is not spent stands, when a mark is set. -/
theorem reserve_clears {oldest : List Candidate} {queued : TaskId → Bool}
    (set : (reserve fleet oldest queued now r).set ≠ none) {m : Member}
    (member : m ∈ (fleet.cleared (reserve fleet oldest queued now r).clear).members) :
    reservingNow m now = none := by
  obtain ⟨before, inFleet, rfl⟩ := List.mem_map.mp member
  unfold Member.clears
  split
  · rfl
  rename_i notCleared
  cases isMarked : before.reserving with
  | none =>
      unfold reservingNow
      rw [isMarked]
      rfl
  | some mark =>
      exfalso
      have marked : before ∈ fleet.members.filter (·.reserving.isSome) := by simp [inFleet, isMarked]
      unfold reserve at set notCleared
      extract_lets at set notCleared
      split at set
      · exact set rfl
      rename_i notKept
      rw [if_neg notKept] at notCleared
      rw [Bool.not_eq_true, List.any_eq_false] at notKept
      refine notCleared (List.contains_iff_mem.mpr (List.mem_map.mpr ⟨before, List.mem_filter.mpr ⟨marked, ?_⟩, rfl⟩))
      simpa using notKept before marked

/-- A reservation is for a build its host can take: when a mark is set, none stands that is not spent, the
build fits no registration that claims, and once its host is marked and holds nothing, the host takes that
build before anything else that waits, if its claim offers the memory of the build's units. -/
theorem reserve_sets {oldest : List Candidate} {queued : TaskId → Bool} {host : WorkerId} {task : TaskId}
    (set : (reserve fleet oldest queued now r).set = some (host, task)) :
    (∀ m ∈ (fleet.cleared (reserve fleet oldest queued now r).clear).members, reservingNow m now = none) ∧
    ∃ c ∈ oldest, c.id = task ∧
      (∀ m ∈ fleet.members, Claiming m now → select m fleet [c] now r = []) ∧
      let marked := ((fleet.cleared (reserve fleet oldest queued now r).clear).marked host ⟨task, now⟩).without host
      ∃ h ∈ marked.members, h.id = host ∧ h.reserving = some ⟨task, now⟩ ∧
        ((h.offer.all fun offer =>
            (unitsOf c.kind ((sizeOf c (largestSize fleet now r) r).map (·.1)) r : Int) ≤ offer) = true →
          ∀ candidates, c ∈ candidates →
            ∃ first rest, select h marked candidates now r = first :: rest ∧ first.id = task) := by
  have none_ : ∀ m ∈ (fleet.cleared (reserve fleet oldest queued now r).clear).members, reservingNow m now = none :=
    fun m member => reserve_clears (by rw [set]; simp) member
  refine ⟨none_, ?_⟩
  have weighs : weigh fleet now r oldest = some (host, task) := by
    unfold reserve at set
    extract_lets at set
    split at set
    · cases set
    · exact set
  obtain ⟨c, inOldest, isTask, build, belowCap, fits, best, could, isHost⟩ := weigh_some weighs
  refine ⟨c, inOldest, isTask, fun m member claims => select_of_fitsNow fits member claims, ?_⟩
  intro marked
  obtain ⟨isClaiming, leased⟩ := List.mem_filter.mp could
  obtain ⟨h, inFleet, isBest⟩ := List.mem_map.mp isClaiming
  subst isBest
  have sameId : h.id = host := isHost
  have legacy : h.legacy = false := by
    simp only [Bool.and_eq_true, Bool.not_eq_true'] at leased
    exact leased.1
  have awake : h.asleep = false := by
    obtain ⟨-, claims⟩ := List.mem_filter.mp inFleet
    simp only [counts, Bool.and_eq_true, Bool.not_eq_true'] at claims
    exact claims.1.1.2
  have same : fleet.Remarks marked := fleet.remarks_written _ host ⟨task, now⟩
  have isMember : { h with reserving := some ⟨task, now⟩ } ∈ marked.members := by
    refine List.mem_map.mpr ⟨h.clears (reserve fleet oldest queued now r).clear,
      List.mem_map.mpr ⟨h, List.mem_of_mem_filter inFleet, rfl⟩, ?_⟩
    obtain ⟨_, cleared⟩ := h.sameButMark_clears (reserve fleet oldest queued now r).clear
    rw [cleared]
    unfold Member.marks
    rw [if_pos (by simpa using sameId)]
  have leases : marked.leases = withoutLeases fleet.leases h.id := by
    rw [sameId]
    rfl
  clear_value marked
  refine ⟨_, isMember, sameId, rfl, fun offers candidates inList => ?_⟩
  subst isTask
  exact select_first_of_passes legacy awake
    (Passes.of_couldLease same leases build belowCap fits could offers _) inList

end

/-! ## A host of four builds -/

/-- A large build that has waited for two hours. -/
def largeBuild : Candidate := { recipeBuild with size := some 2, queuedAt := -120 * minute }

/-- Six of a host's nine units. -/
def sixLeased (host : WorkerId) : Held where
  task := 9
  byWorker := host
  kind := .build
  arch := .x86_64
  lane := some .native
  units := 6
  model := false
  trust := .project
  owner := none
  diskGb := 60

def busyFleet (offer : Option Int) : Fleet := ⟨[{ nativeHost "a" 9 with offer }], [sixLeased "a"], []⟩

theorem reserve_sets_busyFleet :
    (reserve (busyFleet (some 4)) [largeBuild] (fun _ => true) 0 signedRules).set = some ("a", 1) ∧
    ∃ c ∈ [largeBuild], c.id = 1 ∧
      ∀ m ∈ (busyFleet (some 4)).members, Claiming m 0 → select m (busyFleet (some 4)) [c] 0 signedRules = [] := by
  have set : (reserve (busyFleet (some 4)) [largeBuild] (fun _ => true) 0 signedRules).set = some ("a", 1) := by
    decide +kernel
  obtain ⟨-, c, member, isTask, none_, -⟩ := reserve_sets set
  exact ⟨set, c, member, isTask, none_⟩

/-- The offer of a claim is not weighed: the host is marked, and takes nothing of the build when it is idle. -/
theorem reserve_beyond_offer :
    let marks := reserve (busyFleet (some 2)) [largeBuild] (fun _ => true) 0 signedRules
    let marked := (((busyFleet (some 2)).cleared marks.clear).marked "a" ⟨1, 0⟩).without "a"
    marks.set = some ("a", 1) ∧
      ∀ h ∈ marked.members, h.id = "a" ∧ select h marked [largeBuild] 0 signedRules = [] := by
  decide +kernel

end OmarchyPool.Factory
