/-
# OmarchyPool.DiffExact -- the fold of the deltas is the diff of the full lists

`diffFromDeltas` walks from the newer release down its parents to the older one and folds
the deltas on the way, an op that meets its opposite leaving the fold.  Above the ring's
oldest checkpoint every delta is what changed between two selections (`Tallied.deltas`), so
what is left for a package is what happened to it between the two ends (`net_fold`), however
often it came and went.

The sizes come from the summaries stored on the two releases, which count whole selections
(`Tallied.count`, `Tallied.slices`).
-/
import OmarchyPool.Changes
import Mathlib.Algebra.BigOperators.Group.List.Lemmas

namespace OmarchyPool

open Lib

set_option autoImplicit false

/-! ## One package in the fold -/

/-- What happened to a package between two selections. -/
def netOp (before after : Finset PackageId) (id : PackageId) : Option DeltaOp :=
  if id ∈ after \ before then some .add else if id ∈ before \ after then some .remove else none

/-- The row of a package in a release's deltas: one at most, the key being `(release, package)`. -/
def Db.deltaRow? (db : Db) (id : PackageId) (release : ReleaseId) : Option DeltaRow :=
  if id ∈ (db.releaseDeltas release).add then some ⟨release, .add, id, db.package? id⟩
  else if id ∈ (db.releaseDeltas release).remove then some ⟨release, .remove, id, db.package? id⟩
  else none

/-- One package's step of the fold. -/
def meetOp (prev : Option DeltaRow) (r : DeltaRow) : Option DeltaRow :=
  if prev.any (·.op ≠ r.op) then none else some r

theorem get_netStep (net : OrderedMap PackageId DeltaRow) (r : DeltaRow) (id : PackageId) :
    (netStep net r).get id = if r.packageId = id then meetOp (net.get id) r else net.get id := by
  unfold netStep
  by_cases here : r.packageId = id
  · subst here
    rw [if_pos rfl]
    cases found : net.get r.packageId with
    | none => simp [meetOp, OrderedMap.get_set]
    | some prev =>
        by_cases opposite : prev.op ≠ r.op
        · simp [meetOp, opposite, OrderedMap.get_delete]
        · simp [meetOp, opposite, OrderedMap.get_set]
  · rw [if_neg here]
    cases found : net.get r.packageId with
    | none => simp [OrderedMap.get_set, here]
    | some prev =>
        by_cases opposite : prev.op ≠ r.op
        · simp [opposite, OrderedMap.get_delete, here]
        · simp [opposite, OrderedMap.get_set, here]

section Rows

variable (db : Db) (id : PackageId)

theorem deltaRowsOf_filter (release : ReleaseId) :
    (db.deltaRowsOf release).filter (·.packageId = id) = (db.deltaRow? id release).toList := by
  have one : ∀ (op : DeltaOp) (ids : Finset PackageId),
      ((ids.sort (· ≤ ·)).map fun x => (⟨release, op, x, db.package? x⟩ : DeltaRow)).filter
        (·.packageId = id) = if id ∈ ids then [⟨release, op, id, db.package? id⟩] else [] := by
    intro op ids
    rw [List.filter_map]
    have : ((ids.sort (· ≤ ·)).filter ((fun r : DeltaRow => decide (r.packageId = id)) ∘
        fun x => ⟨release, op, x, db.package? x⟩)) = if id ∈ ids then [id] else [] := by
      simp only [Function.comp_def]
      rw [List.filter_eq, (Finset.sort_nodup _ _).count]
      by_cases member : id ∈ ids <;> simp [member]
    rw [this]
    split <;> rfl
  have apart := Finset.disjoint_left.mp (db.releaseDeltas release).disjoint
  simp only [Db.deltaRowsOf, List.filter_append, one, Db.deltaRow?]
  by_cases added : id ∈ (db.releaseDeltas release).add
  · simp [added, apart added]
  · by_cases removed : id ∈ (db.releaseDeltas release).remove <;> simp [added, removed]

theorem deltaRows_filter (releases : List ReleaseId) :
    (db.deltaRows releases).filter (·.packageId = id) = releases.filterMap (db.deltaRow? id) := by
  induction releases with
  | nil => rfl
  | cons release rest ih =>
      rw [Db.deltaRows, List.flatMap_cons, List.filter_append, deltaRowsOf_filter, List.filterMap_cons,
        ← Db.deltaRows, ih]
      cases db.deltaRow? id release <;> rfl

theorem deltaRow?_some {release : ReleaseId} {r : DeltaRow} (is : db.deltaRow? id release = some r) :
    r.releaseId = release ∧ r.packageId = id ∧ r.package = db.package? id := by
  unfold Db.deltaRow? at is
  split at is
  · cases is
    exact ⟨rfl, rfl, rfl⟩
  · split at is
    · cases is
      exact ⟨rfl, rfl, rfl⟩
    · cases is

/-- The rows of the package pass the filter of the fold. -/
def Db.isAsked (arch : Option Arch) : Bool :=
  arch.all fun a => ((db.package? id).map (·.repoArch)) == some a

theorem isAsked_of_package (arch : Option Arch) {p : Package} (found : db.package? id = some p) :
    db.isAsked id arch = arch.all (· == p.repoArch) := by
  cases arch with
  | none => rfl
  | some a =>
      rw [Bool.eq_iff_iff]
      simp only [Db.isAsked, found, Option.map_some, Option.all_some, beq_iff_eq, Option.some.injEq]
      exact eq_comm

variable {db id} in
theorem mem_chainRows {chain : List ReleaseId} {r : DeltaRow}
    (member : r ∈ chain.filterMap (db.deltaRow? id)) :
    r.releaseId ∈ chain ∧ db.deltaRow? id r.releaseId = some r ∧ r.package = db.package? id := by
  obtain ⟨release, inChain, is⟩ := List.mem_filterMap.mp member
  obtain ⟨rfl, -, package⟩ := deltaRow?_some db id is
  exact ⟨inChain, is, package⟩

/-- The rows of one package as the fold meets them: oldest release first. -/
theorem sorted_filter {chain : List ReleaseId} (distinct : chain.Nodup) (arch : Option Arch) :
    (((db.deltaRows chain).filter fun r => arch.all fun a =>
        (r.package.map (·.repoArch)) == some a).insertionSort
      fun x y => chain.idxOf y.releaseId ≤ chain.idxOf x.releaseId).filter (·.packageId = id) =
      if db.isAsked id arch then (chain.filterMap (db.deltaRow? id)).reverse else [] := by
  generalize isSorted : ((db.deltaRows chain).filter fun r => arch.all fun a =>
    (r.package.map (·.repoArch)) == some a).insertionSort
      (fun x y => chain.idxOf y.releaseId ≤ chain.idxOf x.releaseId) = sorted
  have perm : (sorted.filter (·.packageId = id)).Perm
      (if db.isAsked id arch then chain.filterMap (db.deltaRow? id) else []) := by
    rw [← isSorted]
    refine ((List.perm_insertionSort _ _).filter _).trans ?_
    rw [List.filter_comm, deltaRows_filter]
    have all : ∀ r ∈ chain.filterMap (db.deltaRow? id),
        (arch.all fun a => (r.package.map (·.repoArch)) == some a) = db.isAsked id arch := by
      intro r member
      rw [(mem_chainRows member).2.2, Db.isAsked]
    rw [List.filter_congr all]
    cases db.isAsked id arch <;> simp
  by_cases isAsked : db.isAsked id arch = true
  · rw [if_pos isAsked] at perm ⊢
    -- Sorted both, by releases that are all different.
    have falling : sorted.Pairwise fun x y => chain.idxOf y.releaseId ≤ chain.idxOf x.releaseId := by
      have : IsTrans DeltaRow fun x y => chain.idxOf y.releaseId ≤ chain.idxOf x.releaseId :=
        ⟨fun _ _ _ xy yz => Nat.le_trans yz xy⟩
      have : Std.Total fun x y : DeltaRow => chain.idxOf y.releaseId ≤ chain.idxOf x.releaseId :=
        ⟨fun _ _ => Nat.le_total _ _⟩
      rw [← isSorted]
      exact List.pairwise_insertionSort _ _
    refine List.Perm.eq_of_pairwise ?_ (falling.filter _) ?_ (perm.trans (List.reverse_perm _).symm)
    · intro a b memA memB below above
      obtain ⟨inA, isA, -⟩ := mem_chainRows (perm.mem_iff.mp memA)
      obtain ⟨inB, isB, -⟩ := mem_chainRows (List.mem_reverse.mp memB)
      have same := (List.idxOf_inj inA).mp (Nat.le_antisymm above below)
      rw [same, isB] at isA
      exact (Option.some.inj isA).symm
    · rw [List.pairwise_reverse, List.pairwise_filterMap]
      have rising : chain.Pairwise fun a b => chain.idxOf a ≤ chain.idxOf b := by
        rw [List.pairwise_iff_getElem]
        intro i j lowI lowJ less
        rw [distinct.idxOf_getElem i lowI, distinct.idxOf_getElem j lowJ]
        exact Nat.le_of_lt less
      refine rising.imp ?_
      intro a b ordered r isR r' isR'
      rw [(deltaRow?_some db id isR).1, (deltaRow?_some db id isR').1]
      exact ordered
  · rw [if_neg isAsked] at perm ⊢
    exact perm.eq_nil

theorem get_netOf {chain : List ReleaseId} (distinct : chain.Nodup) (arch : Option Arch) :
    (netOf chain arch (db.deltaRows chain)).get id =
      if db.isAsked id arch then
        (chain.filterMap (db.deltaRow? id)).foldr (fun r prev => meetOp prev r) none
      else none := by
  rw [netOf, OrderedMap.get_foldl netStep (·.packageId) meetOp (fun _ _ _ => get_netStep _ _ _),
    sorted_filter db id distinct arch]
  split
  · rw [List.foldl_reverse]
    rfl
  · rfl

end Rows

/-! ## A chain of releases -/

/-- The deltas of the releases, newest first, each what changed since the one before. -/
inductive Linked (db : Db) (before : Finset PackageId) : List Release → Finset PackageId → Prop where
  | nil : Linked db before [] before
  | cons {r : Release} {older : List Release} {mid after : Finset PackageId} :
      Linked db before older mid → db.releaseDeltas r.id = .between mid after →
      Linked db before (r :: older) after

/-- One release more: an op that meets its opposite leaves nothing, as nothing happened. -/
theorem net_step {db : Db} {release : ReleaseId} {before mid after : Finset PackageId}
    (delta : db.releaseDeltas release = .between mid after) (id : PackageId) {prev : Option DeltaRow}
    (soFar : prev.map DeltaRow.op = netOp before mid id) :
    (match db.deltaRow? id release with
      | some r => meetOp prev r
      | none => prev).map DeltaRow.op = netOp before after id := by
  unfold Db.deltaRow?
  rw [delta]
  simp only [Delta.between, Finset.mem_sdiff]
  by_cases inBefore : id ∈ before <;> by_cases inMid : id ∈ mid <;>
    by_cases inAfter : id ∈ after <;>
    · simp only [netOp, Finset.mem_sdiff, inBefore, inMid, inAfter, not_true, not_false_iff, and_true,
        and_false, if_true, if_false] at soFar ⊢
      cases prev <;> simp_all [meetOp]

/-- What the fold leaves of a package is what happened to it between the two ends. -/
theorem net_fold {db : Db} {before after : Finset PackageId} {chain : List Release}
    (linked : Linked db before chain after) (id : PackageId) :
    (((chain.map (·.id)).filterMap (db.deltaRow? id)).foldr (fun r prev => meetOp prev r) none).map
      DeltaRow.op = netOp before after id := by
  induction linked with
  | nil => simp [netOp]
  | cons _ delta ih =>
      have step := net_step delta id ih
      rw [List.map_cons, List.filterMap_cons]
      split at step <;> rename_i found <;> simpa only [found, List.foldr_cons] using step

/-- The ids an op is left for. -/
def changed (before after : Finset PackageId) : DeltaOp → Finset PackageId
  | .add => after \ before
  | .remove => before \ after

theorem netOp_eq_some {before after : Finset PackageId} {id : PackageId} {op : DeltaOp} :
    netOp before after id = some op ↔ id ∈ changed before after op := by
  unfold netOp
  cases op <;> by_cases inBefore : id ∈ before <;> by_cases inAfter : id ∈ after <;>
    simp [changed, inBefore, inAfter]

theorem mem_of_meet {rows : List DeltaRow} {row : DeltaRow}
    (left : rows.foldr (fun r prev => meetOp prev r) none = some row) : row ∈ rows := by
  cases rows with
  | nil => cases left
  | cons r rest =>
      rw [List.foldr_cons, meetOp] at left
      split at left
      · cases left
      · cases left
        exact List.mem_cons_self

theorem valid_net (rows : List DeltaRow) {net : OrderedMap PackageId DeltaRow}
    (valid : OrderedMap.Valid net) : OrderedMap.Valid (rows.foldl netStep net) := by
  induction rows generalizing net with
  | nil => exact valid
  | cons r rest ih =>
      refine ih ?_
      unfold netStep
      split
      · split
        · exact valid.delete _
        · exact valid.set _ _
      · exact valid.set _ _

section Net

variable {db : Db} {packages : List Package} (distinct : (packages.map (·.id)).Nodup)
  (fewer : db.packages.Sublist packages) {chain : List Release} (ids : (chain.map (·.id)).Nodup)
  {before after : Finset PackageId} (linked : Linked db before chain after)
  (there : ∀ r ∈ db.deltaRows (chain.map (·.id)), r.package.isSome = true) (arch : Option Arch)
include distinct fewer ids linked there

omit distinct in
/-- An entry of the fold is a package of the index, with what happened to it. -/
theorem net_entry (id : PackageId) (row : DeltaRow)
    (found : (netOf (chain.map (·.id)) arch (db.deltaRows (chain.map (·.id)))).get id = some row) :
    ∃ p ∈ packages, p.id = id ∧ row.package = some p ∧ arch.all (· == p.repoArch) = true ∧
      id ∈ changed before after row.op := by
  rw [get_netOf db id ids] at found
  split at found
  · rename_i isAsked
    have member := mem_of_meet found
    obtain ⟨-, -, package⟩ := mem_chainRows member
    have inRows : row ∈ db.deltaRows (chain.map (·.id)) := by
      rw [← deltaRows_filter] at member
      exact (List.mem_filter.mp member).1
    obtain ⟨p, isPackage⟩ := Option.isSome_iff_exists.mp (there row inRows)
    rw [package] at isPackage
    refine ⟨p, fewer.subset (List.mem_of_find?_eq_some isPackage),
      by simpa using List.find?_some isPackage, package.trans isPackage, ?_, ?_⟩
    · rwa [isAsked_of_package db id arch isPackage] at isAsked
    · have net := net_fold linked id
      rw [found] at net
      exact netOp_eq_some.mp net.symm
  · cases found

/-- What happened to a package of the index is in the fold. -/
theorem net_of_changed {p : Package} (member : p ∈ packages) (isAsked : arch.all (· == p.repoArch) = true)
    {op : DeltaOp} (isChanged : p.id ∈ changed before after op) :
    ∃ row, (netOf (chain.map (·.id)) arch (db.deltaRows (chain.map (·.id)))).get p.id = some row ∧
      row.op = op ∧ row.package = some p := by
  have net := net_fold linked p.id
  rw [netOp_eq_some.mpr isChanged] at net
  obtain ⟨row, left, isOp⟩ := Option.map_eq_some_iff.mp net
  have inChain := mem_of_meet left
  obtain ⟨-, -, package⟩ := mem_chainRows inChain
  have inRows : row ∈ db.deltaRows (chain.map (·.id)) := by
    rw [← deltaRows_filter] at inChain
    exact (List.mem_filter.mp inChain).1
  obtain ⟨q, isPackage⟩ := Option.isSome_iff_exists.mp (there row inRows)
  have found := package.symm.trans isPackage
  have same : q.id = p.id := by simpa using List.find?_some found
  obtain rfl := List.inj_on_of_nodup_map distinct (fewer.subset (List.mem_of_find?_eq_some found)) member same
  refine ⟨row, ?_, isOp, isPackage⟩
  rw [get_netOf db q.id ids, if_pos, left]
  rwa [isAsked_of_package db q.id arch found]

/-- One side of the fold: the rows of the index its op is left for, in some order. -/
theorem netSide_perm (op : DeltaOp) :
    (netSide (netOf (chain.map (·.id)) arch (db.deltaRows (chain.map (·.id)))) op).Perm
      ((asked packages arch (changed before after op)).map Package.side) := by
  have entry := net_entry fewer ids linked there arch
  have valid : OrderedMap.Valid (netOf (chain.map (·.id)) arch (db.deltaRows (chain.map (·.id)))) :=
    valid_net _ List.nodup_nil
  have back {p : Package} (member : p ∈ packages) (isAsked : arch.all (· == p.repoArch) = true)
      (isChanged : p.id ∈ changed before after op) :=
    net_of_changed distinct fewer ids linked there arch member isAsked isChanged
  generalize netOf (chain.map (·.id)) arch (db.deltaRows (chain.map (·.id))) = net at entry valid back
  have sides : netSide net op =
      (((net.map (·.2)).filter (·.op == op)).filterMap (·.package)).map Package.side := by
    rw [List.map_filterMap]
    rfl
  rw [sides]
  refine List.Perm.map _ ((List.perm_ext_iff_of_nodup ?_ (nodup_asked distinct _ _)).mpr ?_)
  · have apart : net.Pairwise fun e e' => ∀ p, e.2.package = some p → ∀ p', e'.2.package = some p' →
        p ≠ p' := by
      refine List.Pairwise.imp_of_mem ?_ (List.pairwise_map.mp valid)
      rintro ⟨id, row⟩ ⟨id', row'⟩ member member' differ p isP p' isP' rfl
      obtain ⟨q, -, rfl, isQ, -⟩ := entry _ _ (OrderedMap.get_of_mem valid member)
      obtain ⟨q', -, rfl, isQ', -⟩ := entry _ _ (OrderedMap.get_of_mem valid member')
      rw [isP] at isQ
      rw [isP'] at isQ'
      cases isQ
      cases isQ'
      exact differ rfl
    unfold List.Nodup
    rw [List.pairwise_filterMap]
    exact (List.pairwise_map.mpr apart).filter _
  · intro p
    simp only [mem_asked, List.mem_filterMap, List.mem_filter, List.mem_map, beq_iff_eq]
    constructor
    · rintro ⟨row, ⟨⟨⟨id, _⟩, member, rfl⟩, rfl⟩, isP⟩
      obtain ⟨q, inPackages, rfl, isQ, isAsked, isChanged⟩ := entry _ _ (OrderedMap.get_of_mem valid member)
      rw [isP] at isQ
      cases isQ
      exact ⟨inPackages, isChanged, isAsked⟩
    · rintro ⟨inPackages, isChanged, ofArch⟩
      obtain ⟨row, found, isOp, isP⟩ := back inPackages ofArch isChanged
      exact ⟨row, ⟨⟨_, OrderedMap.mem_of_get found, rfl⟩, isOp⟩, isP⟩

end Net

/-! ## The walk down the parents -/

section Walk

variable {floor : Ring → Nat} {w : World} (inv : Exact floor w) (from_ : ReleaseId) (bottom : Nat)
include inv

theorem chainTo_falling (fuel : Nat) {cur : Release} (member : cur ∈ w.db.releases) :
    (w.db.chainTo from_ bottom fuel cur).Pairwise (fun a b => b.seq < a.seq) ∧
      ∀ r ∈ w.db.chainTo from_ bottom fuel cur, r ∈ w.db.releases ∧ r.seq ≤ cur.seq := by
  induction fuel generalizing cur with
  | zero => simp [Db.chainTo, member]
  | succ fuel ih =>
      unfold Db.chainTo
      split
      · cases found : cur.parentId.bind w.db.release? with
        | none => simp [member]
        | some parent =>
            obtain ⟨parentId, isParent, read⟩ := Option.bind_eq_some_iff.mp found
            obtain ⟨parentMember, sameId⟩ := inv.ordered.release?_eq_some.mp read
            have below : parent.seq < cur.seq := by
              rcases inv.chain cur member with ⟨-, none⟩ | ⟨q, qMember, isQ, -, seq⟩
              · rw [none] at isParent
                cases isParent
              · rw [isQ, Option.some.injEq] at isParent
                rw [inv.ordered.eq_of_id parentMember qMember (sameId.trans isParent.symm)]
                omega
            obtain ⟨falling, inside⟩ := ih parentMember
            refine ⟨List.pairwise_cons.mpr ⟨?_, falling⟩, ?_⟩
            · intro r inTail
              exact Nat.lt_of_le_of_lt (inside r inTail).2 below
            · intro r inChain
              rcases List.mem_cons.mp inChain with rfl | inTail
              · exact ⟨member, Nat.le_refl _⟩
              · exact ⟨(inside r inTail).1, Nat.le_trans (inside r inTail).2 (Nat.le_of_lt below)⟩
      · simp [member]

/-- A walk that stays above the floor and ends under `from_` links the two selections. -/
theorem chainTo_linked {packages : List Package} (tallied : Tallied packages floor w) (fuel : Nat)
    {cur : Release} (member : cur ∈ w.db.releases) (bounded : floor cur.ring ≤ bottom)
    (above : ∀ r ∈ w.db.chainTo from_ bottom fuel cur, bottom < r.seq)
    (met : (w.db.chainTo from_ bottom fuel cur).getLast?.bind (·.parentId) = some from_) :
    Linked w.db (w.selection from_) (w.db.chainTo from_ bottom fuel cur) (w.selection cur.id) := by
  -- A chain of one release, which `from_` is the parent of.
  have single : bottom < cur.seq → cur.parentId = some from_ →
      Linked w.db (w.selection from_) [cur] (w.selection cur.id) := fun high parent =>
    .cons .nil (tallied.deltas cur member from_ parent (Nat.lt_of_le_of_lt bounded high))
  induction fuel generalizing cur with
  | zero => exact single (above cur (by simp [Db.chainTo])) (by simpa [Db.chainTo] using met)
  | succ fuel ih =>
      unfold Db.chainTo at above met ⊢
      split at above
      · rename_i further
        rw [if_pos further] at met ⊢
        cases found : cur.parentId.bind w.db.release? with
        | none =>
            simp only [found] at above met ⊢
            exact single (above cur (by simp)) (by simpa using met)
        | some parent =>
            simp only [found] at above met ⊢
            obtain ⟨parentId, isParent, read⟩ := Option.bind_eq_some_iff.mp found
            obtain ⟨parentMember, rfl⟩ := inv.ordered.release?_eq_some.mp read
            have ring : parent.ring = cur.ring := by
              rcases inv.chain cur member with ⟨-, none⟩ | ⟨q, qMember, isQ, sameRing, -⟩
              · rw [none] at isParent
                cases isParent
              · rw [isQ, Option.some.injEq] at isParent
                rw [inv.ordered.eq_of_id parentMember qMember isParent.symm]
                exact sameRing
            refine .cons (ih parentMember (by rwa [ring])
              (fun r inTail => above r (List.mem_cons_of_mem _ inTail)) ?_ ?_) ?_
            · have some_ : w.db.chainTo from_ bottom fuel parent ≠ [] := by
                cases fuel <;> simp [Db.chainTo]
              rwa [List.getLast?_cons_of_ne_nil some_] at met
            · exact fun high isFrom => .cons .nil (tallied.deltas parent parentMember from_ isFrom
                (by rw [ring]; exact Nat.lt_of_le_of_lt bounded high))
            · exact tallied.deltas cur member parent.id isParent
                (Nat.lt_of_le_of_lt bounded (above cur List.mem_cons_self))
      · rename_i stop
        rw [if_neg stop] at met ⊢
        exact single (above cur (by simp)) (by simpa using met)

end Walk

/-! ## The two runs -/

/-- What `diffFromDeltas` read when it answers, `bottom` being the seq of the ring's oldest
checkpoint. -/
structure Folded (db : Db) (from_ upTo : Release) (arch : Option Arch) (bottom : Nat)
    (chain : List Release) (fold : DiffSides) : Prop where
  oldest : db.firstCheckpoint upTo.ring = some bottom
  walked : db.chain from_.id upTo.id bottom = chain
  met : upTo.id ≠ from_.id → chain.getLast?.bind (·.parentId) = some from_.id
  above : ∀ r ∈ chain, bottom < r.seq
  there : ∀ r ∈ db.deltaRows (chain.map (·.id)), r.package.isSome = true
  countBefore : from_.size arch = some fold.countBefore
  countAfter : upTo.size arch = some fold.countAfter
  before : fold.before = netSide (netOf (chain.map (·.id)) arch (db.deltaRows (chain.map (·.id)))) .remove
  after : fold.after = netSide (netOf (chain.map (·.id)) arch (db.deltaRows (chain.map (·.id)))) .add

theorem diffFromDeltas_spec (from_ upTo : Release) (arch : Option Arch) (w : World) :
    (diffFromDeltas (some from_) upTo arch).Spec (.alone World Event) w fun result _ =>
      ∀ fold, result = .ok (some fold) → ∃ bottom chain, Folded w.db from_ upTo arch bottom chain fold := by
  unfold diffFromDeltas
  dsimp only
  split
  · rename_i before after isBefore isAfter
    refine Program.Spec.bind (Program.alone_query ?_)
    dsimp only
    split
    · rintro _ ⟨⟩
    rename_i bottom isBottom
    split
    · rintro _ ⟨⟩
    refine Program.Spec.bind (Program.alone_query ?_)
    dsimp only
    split
    · rintro _ ⟨⟩
    rename_i met
    split
    · rintro _ ⟨⟩
    rename_i high
    generalize isChain : w.db.chain from_.id upTo.id bottom = chain at met high
    have finish : Program.Spec (.alone World Event)
        (if (w.db.deltaRows (chain.map (·.id))).any (·.package.isNone) then pure none else
          pure (some ⟨netSide (netOf (chain.map (·.id)) arch (w.db.deltaRows (chain.map (·.id)))) .remove,
            netSide (netOf (chain.map (·.id)) arch (w.db.deltaRows (chain.map (·.id)))) .add,
            before, after⟩) : Handler (Option DiffSides)) w fun result _ =>
          ∀ fold, result = .ok (some fold) →
            ∃ bottom chain, Folded w.db from_ upTo arch bottom chain fold := by
      split
      · rintro _ ⟨⟩
      rename_i there
      rintro _ ⟨⟩
      refine ⟨bottom, chain, isBottom, isChain, ?_, ?_, ?_, isBefore, isAfter, rfl, rfl⟩
      · intro differ
        by_contra missed
        exact met ⟨differ, missed⟩
      · intro r member
        by_contra low
        exact high (List.any_eq_true.mpr ⟨r, member, by simpa using low⟩)
      · intro r member
        rw [Option.isSome_iff_ne_none]
        intro none
        exact there (List.any_eq_true.mpr ⟨r, member, by simp [none]⟩)
    split
    · -- With no release between them there are no rows to ask for.
      rename_i empty
      rw [List.isEmpty_iff.mp empty] at finish ⊢
      exact finish
    · exact Program.Spec.bind (Program.alone_query finish)
  · rintro _ ⟨⟩

section Full

variable {packages : List Package} (distinct : (packages.map (·.id)).Nodup) {w : World}
  (sound : Sound (Tallied packages) w)
include distinct

include sound in
theorem membersOrGone_spec (r : Release) :
    (membersOrGone r).Spec (onItsOwn (Sound (Tallied packages))) w fun result w' =>
      Settled w w' ∧ Sound (Tallied packages) w' ∧
        ∀ members, result = .ok members → Listed w' r.id members := by
  refine Program.Spec.rescue ((sound_releaseMembers (tallied_survives distinct) r.id sound).mono ?_)
  rintro (error | members) w' ⟨settled, sound', listed⟩
  · exact ⟨settled, sound', by simp⟩
  · exact ⟨settled, sound', listed⟩

/-- The rows of a side, listed in full. -/
theorem sideRows_eq {id : ReleaseId} {members : Members} {floor : Ring → Nat} (inv : Exact floor w)
    (tallied : Tallied packages floor w) (listed : Listed w id members) (arch : Option Arch) :
    w.db.sideRows members arch = (asked packages arch (w.selection id)).map Package.side := by
  rw [Db.sideRows, inv.rows_of_listed listed,
    joined_eq distinct tallied.fewer (tallied.present inv listed), asked]

include sound in
theorem fullSides_spec (from_ upTo : Release) (arch : Option Arch) :
    (fullSides (some from_) upTo arch).Spec (onItsOwn (Sound (Tallied packages))) w fun result _ =>
      ∀ full, result = .ok full →
        full = ⟨(asked packages arch (w.selection from_.id)).map Package.side,
          (asked packages arch (w.selection upTo.id)).map Package.side,
          ((asked packages arch (w.selection from_.id)).map Package.side).length,
          ((asked packages arch (w.selection upTo.id)).map Package.side).length⟩ := by
  unfold fullSides
  refine Program.Spec.bind ((membersOrGone_spec distinct sound upTo).mono ?_)
  rintro (error | ofTo) w₁ ⟨settled₁, sound₁, listedTo⟩
  · rintro _ ⟨⟩
  refine Program.Spec.bind ((membersOrGone_spec distinct sound₁ from_).mono ?_)
  rintro (error | ofFrom) w₂ ⟨settled₂, ⟨floor, inv, tallied⟩, listedFrom⟩
  · rintro _ ⟨⟩
  refine Program.Spec.bind (Program.spec_query (fun _ => trivial) ?_)
  rintro _ rfl _ -
  refine Program.Spec.bind (Program.spec_query (fun _ => trivial) ?_)
  rintro _ rfl _ -
  rintro _ ⟨⟩
  have selection := (settled₁.trans settled₂).selection
  dsimp only
  rw [sideRows_eq distinct inv tallied (listedFrom _ rfl),
    sideRows_eq distinct inv tallied ((listedTo _ rfl).later settled₂.toRecounted), selection]

end Full

/-! ## The sizes -/

/-- The slices of an architecture count its rows. -/
theorem sum_slicesOf (rows : List Package) (arch : Arch) :
    (((slicesOf rows).filter (·.arch == arch)).map (·.packages)).sum =
      (rows.filter (arch == ·.repoArch)).length := by
  have counts : ∀ group : Arch × String,
      (rows.filter fun p => p.repoArch == group.1 && p.source == group.2).length =
        (rows.map fun p => (p.repoArch, p.source)).countP fun g => decide (g = group) := by
    intro group
    rw [List.countP_map, List.countP_eq_length_filter]
    congr 1
    refine List.filter_congr fun p _ => ?_
    rw [Bool.eq_iff_iff]
    simp [Prod.ext_iff]
  have total : (((rows.map fun p => (p.repoArch, p.source)).dedup.filter (·.1 == arch)).map
      fun group => (rows.map fun p => (p.repoArch, p.source)).countP fun g => decide (g = group)).sum =
        (rows.map fun p => (p.repoArch, p.source)).countP (·.1 == arch) :=
    List.sum_map_count_dedup_filter_eq_countP _ _
  have sorted := List.perm_insertionSort (fun a b : Arch × String =>
    a.1.name < b.1.name ∨ a.1 = b.1 ∧ a.2 ≤ b.2) (rows.map fun p => (p.repoArch, p.source)).dedup
  simp only [slicesOf, List.filter_map, List.map_map, Function.comp_def, counts]
  refine ((sorted.filter _).map _).sum_eq.trans (total.trans ?_)
  rw [List.countP_map, List.countP_eq_length_filter]
  congr 1
  refine List.filter_congr fun p _ => ?_
  rw [Bool.eq_iff_iff]
  simp only [Function.comp_apply, beq_iff_eq]
  exact eq_comm

theorem size_eq {packages : List Package} {floor : Ring → Nat} {w : World}
    (tallied : Tallied packages floor w) {r : Release} (member : r ∈ w.db.releases)
    {arch : Option Arch} {n : Nat} (size : r.size arch = some n) :
    n = (asked packages arch (w.selection r.id)).length := by
  cases arch with
  | none =>
      rw [tallied.count r member n size, asked]
      simp
  | some arch =>
      obtain ⟨slices, stored, rfl⟩ := Option.map_eq_some_iff.mp size
      rw [tallied.slices r member slices stored, sum_slicesOf, asked]
      rfl

/-! ## The diff -/

/-- In every store a sequence of operations reaches in which every selection has one row per
source, name and architecture: when the fold of the deltas answers and both sides can be listed
in full, the two give the same lists and the same counts. -/
theorem diff_fold_eq_full {localeCompare : String → String → Ordering} {packages : List Package}
    {bucket : String → Option Blob} (distinct : (packages.map (·.id)).Nodup)
    (known : ∀ p ∈ packages, p.source ∈ sources) (collates : Collates localeCompare packages) {w : World}
    (reached : Sequence Op.serve (fun _ _ => True) (World.fresh packages bucket) w)
    (slots : ∀ r ∈ w.db.releases, OneRowPerSlot packages (w.selection r.id))
    {from_ upTo : Release} (isFrom : from_ ∈ w.db.releases) (isTo : upTo ∈ w.db.releases)
    {arch : Option Arch} {fold full : DiffSides}
    (folds : ((diffFromDeltas (some from_) upTo arch).run w).1 = .ok (some fold))
    (both : ((fullSides (some from_) upTo arch).run w).1 = .ok full) :
    answer localeCompare fold = answer localeCompare full := by
  have sound := tallied_of_sequence distinct reached
  have ⟨floor, inv, tallied⟩ := sound
  obtain ⟨bottom, chain, folded⟩ := Program.alone_iff.mp (diffFromDeltas_spec from_ upTo arch w) fold folds
  obtain rfl := (Program.run_spec (c := onItsOwn (Sound (Tallied packages))) (fun _ => rfl)
    (fun _ _ => trivial) sound (fullSides_spec distinct sound from_ upTo arch)).2 full both
  -- The oldest checkpoint of the ring is not below its floor.
  have bounded : floor upTo.ring ≤ bottom := by
    obtain ⟨r, isCheckpoint, rfl⟩ := List.mem_map.mp (List.min?_mem folded.oldest)
    obtain ⟨inRing, flag⟩ := List.mem_filter.mp isCheckpoint
    obtain ⟨member, ring⟩ := Db.mem_ofRing.mp inRing
    exact ring ▸ inv.above r member flag
  have linked : (chain.map (·.id)).Nodup ∧
      Linked w.db (w.selection from_.id) chain (w.selection upTo.id) := by
    have isChain := folded.walked
    by_cases same : upTo.id = from_.id
    · rw [same]
      have empty : chain = [] := by
        rw [← isChain, Db.chain]
        simp [same]
      subst empty
      exact ⟨List.nodup_nil, .nil⟩
    · have read : chain = w.db.chainTo from_.id bottom (checkpointEvery * 4) upTo := by
        rw [← isChain, Db.chain, inv.ordered.release?_of_mem isTo]
        simp [same, Option.filter]
      obtain ⟨falling, inside⟩ := chainTo_falling inv from_.id bottom (checkpointEvery * 4) isTo
      have above := folded.above
      have met := folded.met same
      rw [← read] at falling inside
      refine ⟨?_, ?_⟩
      · refine List.pairwise_map.mpr (falling.imp_of_mem ?_)
        intro a b memA memB less sameId
        rw [inv.ordered.eq_of_id (inside a memA).1 (inside b memB).1 sameId] at less
        exact Nat.lt_irrefl _ less
      · rw [read] at above met ⊢
        exact chainTo_linked inv from_.id bottom tallied _ isTo bounded above met
  have changes : Changes packages (w.selection from_.id) (w.selection upTo.id) :=
    ⟨distinct, known, slots from_ isFrom, slots upTo isTo⟩
  have side := netSide_perm distinct tallied.fewer linked.1 linked.2 folded.there arch
  exact changes.answer_eq arch collates (folded.before ▸ side .remove) (folded.after ▸ side .add)
    (size_eq tallied isFrom folded.countBefore) (size_eq tallied isTo folded.countAfter)

/-- Two versions of one package, and another. -/
def diffIndex : List Package :=
  [.sample 1 'a' "core" "bash", .sample 2 'b' "core" "bash" "1.1-1", .sample 3 'c' "core" "curl"]

/-- The second release replaces one of the two packages of the first. -/
def diffRun : List Op :=
  [.create { ring := "edge", add := [Package.sampleHash 'a', Package.sampleHash 'c'] },
    .create { ring := "edge", add := [Package.sampleHash 'b'] }]

/-- The fold gives the package that changed, the full lists both: one upgrade either way. -/
theorem diff_fold_eq_full_diffRun :
    ∃ w from_ upTo fold full, Sequence Op.serve (fun _ _ => True)
        (World.fresh diffIndex fun _ => none) w ∧
      ((diffFromDeltas (some from_) upTo none).run w).1 = .ok (some fold) ∧
      ((fullSides (some from_) upTo none).run w).1 = .ok full ∧
      (fold.before.length = 1 ∧ full.before.length = 2) ∧ answer compare fold = answer compare full :=
  have reached := Runs.start.steps diffRun (by decide)
  have folds := by decide +kernel
  have both := by decide
  ⟨_, ⟨1, .edge, 1, none, none, none, true, some 2, some 2, some [⟨"core", .x86_64, 2, 2⟩]⟩,
    ⟨2, .edge, 2, some 1, none, none, false, some 2, some 2, some [⟨"core", .x86_64, 2, 2⟩]⟩,
    ⟨[(Package.sample 1 'a' "core" "bash").side], [(Package.sample 2 'b' "core" "bash" "1.1-1").side], 2, 2⟩,
    ⟨[(Package.sample 1 'a' "core" "bash").side, (Package.sample 3 'c' "core" "curl").side],
      [(Package.sample 2 'b' "core" "bash" "1.1-1").side, (Package.sample 3 'c' "core" "curl").side], 2, 2⟩,
    reached, folds, both, ⟨rfl, rfl⟩,
    diff_fold_eq_full (by decide) (by decide)
      ⟨inferInstance, fun _ _ _ _ => Std.LawfulEqOrd.eq_of_compare, fun _ _ _ _ =>
        Std.LawfulEqOrd.eq_of_compare, fun _ _ => Std.LawfulEqOrd.eq_of_compare⟩
      reached (by decide) (by decide) (by decide) folds both⟩

end OmarchyPool
