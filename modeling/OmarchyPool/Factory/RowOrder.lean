/-
# OmarchyPool.Factory.RowOrder -- selection does not see the order of its rows

The registrations, the leases and the models of a fleet, and the candidates of a claim, are read
from tables in no order that means anything.  Each of the filters counts or sums over them or asks
whether there is one, so it reads a reordered fleet alike (`Fleet.Reorders`, one lemma a function);
what passes is sorted by a comparison that tells two candidates apart by their id in the end
(`ranked_eq_of_perm`), and the guaranteed share and the mark only move what is sorted.

`select_reordered` is the result: the same choices in the same order.
-/
import OmarchyPool.Factory.Selection
import OmarchyPool.Factory.Placement

namespace OmarchyPool.Factory

set_option autoImplicit false

/-- The same fleet, its rows in another order. -/
structure Fleet.Reorders (fleet fleet' : Fleet) : Prop where
  members : fleet.members.Perm fleet'.members
  leases : fleet.leases.Perm fleet'.leases
  models : fleet.models.Perm fleet'.models

section Leases

variable {held held' : List Held}

theorem taskUnits_perm (perm : held.Perm held') : taskUnits held = taskUnits held' :=
  ((perm.filter _).map _).sum_eq

theorem jobUnits_perm (perm : held.Perm held') : jobUnits held = jobUnits held' :=
  ((perm.filter _).map _).sum_eq

theorem roomOf_perm (m : Member) (r : Rules) (perm : held.Perm held') : roomOf m held r = roomOf m held' r := by
  unfold roomOf
  rw [taskUnits_perm perm, jobUnits_perm perm]

theorem noRoom_perm (m : Member) (c : Candidate) (units : Nat) (disk : Option ℚ) (r : Rules)
    (perm : held.Perm held') : noRoom m held c units disk r = noRoom m held' c units disk r := by
  have slots : (held.filter (·.model)).length = (held'.filter (·.model)).length := (perm.filter _).length_eq
  have budgets : ((held.filter (·.kind == .build)).map (·.diskGb)).sum =
      ((held'.filter (·.kind == .build)).map (·.diskGb)).sum := ((perm.filter _).map _).sum_eq
  unfold noRoom
  simp only [roomOf_perm m r perm, slots, budgets]

theorem ownersLeased_perm (perm : held.Perm held') : ownersLeased held = ownersLeased held' := by
  funext owner
  exact perm.countP_eq _

end Leases

namespace Fleet.Reorders

variable {fleet fleet' : Fleet} (same : fleet.Reorders fleet') (now : Int) (r : Rules)

include same

theorem heldBy (m : Member) : (Factory.heldBy fleet m).Perm (Factory.heldBy fleet' m) := by
  unfold Factory.heldBy
  split
  · exact List.Perm.refl _
  · exact same.leases.filter _

theorem largestSize : Factory.largestSize fleet now r = Factory.largestSize fleet' now r := by
  refine same.members.foldl_eq' (fun a _ b _ best => ?_) 1
  split <;> split <;> omega

theorem ownerCap : Factory.ownerCap fleet now r = Factory.ownerCap fleet' now r := by
  have total : totalBuilds fleet.members now r = totalBuilds fleet'.members now r :=
    (same.members.map _).sum_eq
  unfold Factory.ownerCap
  rw [total]

theorem needsOtherModel (c : Candidate) :
    Factory.needsOtherModel fleet c now = Factory.needsOtherModel fleet' c now := by
  unfold Factory.needsOtherModel
  rw [same.models.any_eq]

theorem nativeCapacity (c : Candidate) (except : WorkerId) :
    Factory.nativeCapacity fleet c now r except = Factory.nativeCapacity fleet' c now r except := by
  unfold Factory.nativeCapacity
  simp only [same.largestSize now r]
  rw [same.members.any_eq]
  refine congrArg (List.any fleet'.members) (funext fun x => ?_)
  rw [same.leases.any_eq, noRoom_perm x c _ _ r (same.heldBy x)]

theorem auditElsewhere (c : Candidate) (except : WorkerId) :
    Factory.auditElsewhere fleet c now r except = Factory.auditElsewhere fleet' c now r except := by
  unfold Factory.auditElsewhere
  rw [same.members.any_eq]
  refine congrArg (List.any fleet'.members) (funext fun x => ?_)
  rw [same.leases.any_eq, noRoom_perm x c _ _ r (same.heldBy x), same.needsOtherModel now c]

theorem emulatedHeldOf (h : Member) : Factory.emulatedHeldOf h fleet = Factory.emulatedHeldOf h fleet' :=
  (((same.heldBy h).filter _).map _).sum_eq

/-- One candidate is judged alike. -/
theorem consider (h : Member) (cap : Int) (held : Int) (c : Candidate) :
    Factory.consider h fleet cap held now r c = Factory.consider h fleet' cap held now r c := by
  unfold Factory.consider
  simp only [same.needsOtherModel now c, same.auditElsewhere now r c h.id, same.largestSize now r,
    noRoom_perm h c _ _ r (same.heldBy h), same.nativeCapacity now r c h.id,
    ownersLeased_perm same.leases, same.ownerCap now r]

end Fleet.Reorders

/-! ## The candidates -/

section Candidates

variable {candidates candidates' : List Candidate}

/-- With distinct ids there is one candidate to find. -/
theorem find_id_perm (distinct : (candidates.map (·.id)).Nodup) (perm : candidates.Perm candidates') (task : TaskId) :
    candidates.find? (·.id == task) = candidates'.find? (·.id == task) := by
  have distinct' : (candidates'.map (·.id)).Nodup := (perm.map _).nodup_iff.mp distinct
  cases first : candidates.find? (·.id == task) with
  | none =>
      rw [eq_comm, List.find?_eq_none]
      intro c member
      exact List.find?_eq_none.mp first c (perm.mem_iff.mpr member)
  | some c =>
      have isTask : c.id = task := by simpa using List.find?_some first
      cases second : candidates'.find? (·.id == task) with
      | none =>
          have none_ := List.find?_eq_none.mp second c (perm.mem_iff.mp (List.mem_of_find?_eq_some first))
          simp [isTask] at none_
      | some c' =>
          have isTask' : c'.id = task := by simpa using List.find?_some second
          rw [List.inj_on_of_nodup_map distinct' (perm.mem_iff.mp (List.mem_of_find?_eq_some first))
            (List.mem_of_find?_eq_some second) (isTask.trans isTask'.symm)]

theorem Ranked.before_total (a b : Ranked) : a.before b = true ∨ b.before a = true := by
  simp only [Ranked.before, Bool.or_eq_true, Bool.and_eq_true, decide_eq_true_eq, beq_iff_eq]
  grind

theorem Ranked.before_trans {a b d : Ranked} (first : a.before b = true) (second : b.before d = true) :
    a.before d = true := by
  simp only [Ranked.before, Bool.or_eq_true, Bool.and_eq_true, decide_eq_true_eq, beq_iff_eq] at *
  grind

theorem Ranked.id_of_before {a b : Ranked} (first : a.before b = true) (second : b.before a = true) :
    a.c.id = b.c.id := by
  simp only [Ranked.before, Bool.or_eq_true, Bool.and_eq_true, decide_eq_true_eq, beq_iff_eq] at *
  grind

theorem consider_candidate {h : Member} {fleet : Fleet} {cap held now : Int} {r : Rules} {c : Candidate}
    {e : Ranked} (is : consider h fleet cap held now r c = some e) : e.c = c := by
  simp only [consider, Option.bind_eq_bind, Option.bind_eq_some_iff] at is
  obtain ⟨_, _, _, _, _, _, _, _, _, _, _, _, _, _, _, _, _, _, _, _, made⟩ := is
  cases made
  rfl

/-- What passes, sorted: the order of the candidates is forgotten. -/
theorem ranked_eq_of_perm (judge : Candidate → Option Ranked) (candidate : ∀ c e, judge c = some e → e.c = c)
    (distinct : (candidates.map (·.id)).Nodup) (perm : candidates.Perm candidates') :
    (candidates.filterMap judge).insertionSort (fun a b => a.before b) =
      (candidates'.filterMap judge).insertionSort fun a b => a.before b := by
  have trans : IsTrans Ranked fun a b => a.before b = true := ⟨fun _ _ _ => Ranked.before_trans⟩
  have total : Std.Total fun a b : Ranked => a.before b = true := ⟨Ranked.before_total⟩
  refine List.Perm.eq_of_pairwise ?_ (List.pairwise_insertionSort _ _) (List.pairwise_insertionSort _ _)
    ((List.perm_insertionSort _ _).trans ((perm.filterMap judge).trans (List.perm_insertionSort _ _).symm))
  intro a b memA memB first second
  obtain ⟨c, inA, isA⟩ := List.mem_filterMap.mp ((List.mem_insertionSort _).mp memA)
  obtain ⟨d, inB, isB⟩ := List.mem_filterMap.mp ((List.mem_insertionSort _).mp memB)
  have sameId : c.id = d.id := by
    rw [← candidate c a isA, ← candidate d b isB]
    exact Ranked.id_of_before first second
  have same : c = d := List.inj_on_of_nodup_map distinct inA (perm.mem_iff.mpr inB) sameId
  rw [same, isB] at isA
  exact (Option.some.inj isA).symm

end Candidates

/-! ## Selection -/

/-- What `select` makes of those that passed, sorted: the guaranteed share first, then the marked task. -/
def arrange (h : Member) (fleet : Fleet) (now : Int) (ok : List Ranked) (marked : Option Candidate) :
    List Choice :=
  let starved := fun arch : Arch =>
    (h.legacy || !(heldBy fleet h).any fun l => l.lane == some .emulated && l.arch == arch) &&
      !fleet.members.any fun m => alive m now && m.mayClaim && !m.asleep &&
        m.lanes.any fun l => l.arch == arch && l.mode == .native
  let shared := ((ok.filter fun e =>
    e.choice.lane == some .emulated && e.c.kind.byLane && starved e.c.arch).insertionSort
      fun a b => a.older b).head?
  let order := match shared with
    | some e => { e.choice with share := true } :: (ok.erase e).map (·.choice)
    | none => ok.map (·.choice)
  match marked.bind fun c => order.find? (·.id == c.id) with
  | some own => own :: order.eraseP (·.id == own.id)
  | none => order

/-- The task a host keeps its units for, when it is among the candidates. -/
def markedTask (h : Member) (candidates : List Candidate) (now : Int) : Option Candidate :=
  (if h.legacy then none else reservingNow h now).bind fun mark => candidates.find? (·.id == mark.task)

theorem select_eq (h : Member) (fleet : Fleet) (candidates : List Candidate) (now : Int) (r : Rules) :
    select h fleet candidates now r =
      if h.asleep then []
      else arrange h fleet now (((poolOf h fleet candidates now r).filterMap
        (considered h fleet candidates now r)).insertionSort fun a b => a.before b)
        (markedTask h candidates now) := rfl

section Selected

variable {fleet fleet' : Fleet} (same : fleet.Reorders fleet') (now : Int) (r : Rules)

include same

theorem Fleet.Reorders.arrange (h : Member) (ok : List Ranked) (marked : Option Candidate) :
    Factory.arrange h fleet now ok marked = Factory.arrange h fleet' now ok marked := by
  unfold Factory.arrange
  simp only [(same.heldBy h).any_eq, same.members.any_eq]

theorem Fleet.Reorders.poolOf (h : Member) {candidates candidates' : List Candidate}
    (distinct : (candidates.map (·.id)).Nodup) (perm : candidates.Perm candidates') :
    (Factory.poolOf h fleet candidates now r).Perm (Factory.poolOf h fleet' candidates' now r) := by
  unfold Factory.poolOf
  simp only [find_id_perm distinct perm, roomOf_perm h r (same.heldBy h), same.largestSize now r]
  generalize (if h.legacy then none else reservingNow h now) = mark
  split
  · exact perm.filter _
  · exact perm

theorem Fleet.Reorders.considered (h : Member) {candidates candidates' : List Candidate}
    (distinct : (candidates.map (·.id)).Nodup) (perm : candidates.Perm candidates') :
    Factory.considered h fleet candidates now r = Factory.considered h fleet' candidates' now r := by
  have cap : emulatedCapOf h (Factory.poolOf h fleet candidates now r) r =
      emulatedCapOf h (Factory.poolOf h fleet' candidates' now r) r := by
    unfold emulatedCapOf nativeQueued
    rw [(same.poolOf now r h distinct perm).any_eq]
  funext c
  unfold Factory.considered
  rw [cap, same.emulatedHeldOf h, same.consider now r]

end Selected

theorem poolOf_sublist (h : Member) (fleet : Fleet) (candidates : List Candidate) (now : Int) (r : Rules) :
    (poolOf h fleet candidates now r).Sublist candidates := by
  unfold poolOf
  extract_lets mark marked holding
  split
  · exact List.filter_sublist
  · exact List.Sublist.refl _

/-- Selection returns the same choices whatever the order of its rows. -/
theorem select_reordered (h : Member) {fleet fleet' : Fleet} {candidates candidates' : List Candidate} (now : Int)
    (r : Rules) (distinct : (candidates.map (·.id)).Nodup) (same : fleet.Reorders fleet')
    (perm : candidates.Perm candidates') :
    select h fleet candidates now r = select h fleet' candidates' now r := by
  have marked : markedTask h candidates now = markedTask h candidates' now := by
    unfold markedTask
    simp only [find_id_perm distinct perm]
  have distinctPool : ((poolOf h fleet candidates now r).map (·.id)).Nodup :=
    distinct.sublist ((poolOf_sublist h fleet candidates now r).map _)
  rw [select_eq, select_eq, marked, same.considered now r h distinct perm,
    ranked_eq_of_perm (considered h fleet' candidates' now r) (fun _ _ is => consider_candidate is) distinctPool
      (same.poolOf now r h distinct perm)]
  simp only [same.arrange now h]

/-- Two builds on a host of two: whichever row is read first, the older goes first. -/
theorem select_reordered_two :
    select (nativeHost "a" 5) ⟨[nativeHost "a" 5, nativeHost "b" 5], [], []⟩
        [recipeBuild, { recipeBuild with id := 2, queuedAt := -1 }] 0 signedRules =
      select (nativeHost "a" 5) ⟨[nativeHost "b" 5, nativeHost "a" 5], [], []⟩
        [{ recipeBuild with id := 2, queuedAt := -1 }, recipeBuild] 0 signedRules ∧
    (select (nativeHost "a" 5) ⟨[nativeHost "a" 5, nativeHost "b" 5], [], []⟩
      [recipeBuild, { recipeBuild with id := 2, queuedAt := -1 }] 0 signedRules).map (·.id) = [2, 1] :=
  ⟨select_reordered _ 0 signedRules (by decide)
      ⟨List.Perm.swap _ _ _, List.Perm.refl _, List.Perm.refl _⟩ (List.Perm.swap _ _ _),
    by decide +kernel⟩

end OmarchyPool.Factory
