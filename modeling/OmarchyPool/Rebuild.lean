/-
# OmarchyPool.Rebuild -- a release rebuilt from a checkpoint behind it

`ensureCheckpoint` walks the parents of a release to a checkpoint, reads the checkpoint's
rows and replays the deltas up to the release.  What it writes is the release's selection
whenever every statement that relies on the checkpoint finds it as the walk did: its rows
its selection, and the deltas above it unpruned.

`Rebuilds` is that condition on a contract.  Alone, nothing moves between two statements
and it comes from the invariant; with other requests in between it is what the runs
considered have to meet.
-/
import OmarchyPool.Rooted

namespace OmarchyPool

open Lib

set_option autoImplicit false

/-! ## Releases across worlds -/

/-- The release is in the table, up to its flag and counts. -/
def Known (w : World) (r : Release) : Prop := ∃ r' ∈ w.db.releases, r'.fixed = r.fixed

/-- The release is a checkpoint. -/
def Flagged (w : World) (id : ReleaseId) : Prop :=
  ∃ r ∈ w.db.releases, r.id = id ∧ r.checkpoint = true

/-- Releases made so far stay, each with its selection. -/
structure Keeps (w w' : World) : Prop where
  known : ∀ r, Known w r → Known w' r
  selection : ∀ r, Known w r → w'.selection r.id = w.selection r.id

theorem Known.of_mem {w : World} {r : Release} (member : r ∈ w.db.releases) : Known w r :=
  ⟨r, member, rfl⟩

theorem Known.of_fixed {w : World} {r r' : Release} (known : Known w r)
    (same : r'.fixed = r.fixed) : Known w r' := by
  obtain ⟨row, member, eq⟩ := known
  exact ⟨row, member, eq.trans same.symm⟩

namespace Keeps

theorem refl (w : World) : Keeps w w := ⟨fun _ h => h, fun _ _ => rfl⟩

theorem trans {a b d : World} (first : Keeps a b) (second : Keeps b d) : Keeps a d where
  known := fun r known => second.known r (first.known r known)
  selection := fun r known =>
    (second.selection r (first.known r known)).trans (first.selection r known)

theorem same {w : World} {db : Db} (same : w.db.SameReleases db) : Keeps w (w.commit db) where
  known := by
    rintro r ⟨row, member, eq⟩
    obtain ⟨row', member', eq'⟩ := same.exists_fixed member
    exact ⟨row', member', eq'.trans eq⟩
  selection := fun r _ => by rw [World.commit_selection_of_same same]

theorem create {w : World} (ordered : w.db.Ordered) (b : CreateBatch) :
    Keeps w (w.commit (w.db.applyRelease b)) where
  known := by
    rintro r ⟨row, member, eq⟩
    exact ⟨row, by simp [member], eq⟩
  selection := by
    rintro r ⟨row, member, eq⟩
    have older : r.id < w.db.nextRelease := by
      rw [← Release.id_eq eq]
      exact ordered.fresh row member
    rw [World.commit_selection_applyRelease ordered, Function.update_of_ne (Nat.ne_of_lt older)]

end Keeps

theorem flagged_materialise {w : World} {r : Release} (known : Known w r)
    (ids : Finset PackageId) : Flagged (w.commit (w.db.materialise r.id ids)) r.id := by
  obtain ⟨row, member, eq⟩ := known
  have sameId : row.id = r.id := Release.id_eq eq
  refine ⟨{ row with checkpoint := true }, ?_, sameId, rfl⟩
  simp only [World.commit_db, Db.materialise, Db.updateRelease, List.mem_map]
  exact ⟨row, member, by simp [sameId]⟩

/-- A checkpoint that is in the table is above the floor of its ring. -/
theorem Rooted.above_known {floor : Ring → Nat} {w : World} (rooted : Rooted floor w) {base : Release}
    (flag : Flagged w base.id) (known : Known w base) : floor base.ring ≤ base.seq := by
  obtain ⟨row, member, same, isFlag⟩ := flag
  obtain ⟨base', member', eq⟩ := known
  have bottom := rooted.above row member isFlag
  rw [rooted.ordered.eq_of_id member member' (same.trans (Release.id_eq eq).symm), Release.ring_eq eq,
    Release.seq_eq eq] at bottom
  exact bottom

/-- A release above a checkpoint of its ring has its deltas. -/
theorem Rooted.deltas_above {floor : Ring → Nat} {w : World} (rooted : Rooted floor w)
    {base r : Release} (flag : Flagged w base.id) (known : Known w base) (isKnown : Known w r)
    (sameRing : base.ring = r.ring) (below : base.seq < r.seq) {p : ReleaseId}
    (parent : r.parentId = some p) :
    w.selection r.id = (w.db.releaseDeltas r.id).apply (w.selection p) := by
  obtain ⟨row, member, eq⟩ := isKnown
  have bottom := rooted.above_known flag known
  have applied := rooted.deltas row member p ((Release.parentId_eq eq).trans parent)
  rw [Release.ring_eq eq, Release.seq_eq eq, Release.id_eq eq] at applied
  rw [sameRing] at bottom
  exact applied (by omega)

/-! ## The chain of a reconstruction -/

/-- The second is the parent of the first. -/
def ParentOf (r p : Release) : Prop := r.parentId = some p.id ∧ p.ring = r.ring ∧ p.seq < r.seq

/-- Parents follow one another, newest first, and all are in the table. -/
structure Chain (w : World) (chain : List Release) : Prop where
  linked : chain.IsChain ParentOf
  known : ∀ r ∈ chain, Known w r

theorem Chain.tail {w : World} {r : Release} {older : List Release}
    (holds : Chain w (r :: older)) : Chain w older :=
  ⟨holds.linked.tail, fun q member => holds.known q (List.mem_cons_of_mem _ member)⟩

/-- Under the newest release of a chain stands its parent, and below it, in the same ring,
the chain's last. -/
theorem Chain.parent {w : World} {r base : Release} {older : List Release}
    (holds : Chain w (r :: (older ++ [base]))) :
    ∃ p, (older ++ [base]).head? = some p ∧ ParentOf r p ∧
      base.ring = r.ring ∧ base.seq < r.seq := by
  induction older generalizing r with
  | nil =>
      have link : ParentOf r base := by simpa using holds.linked
      exact ⟨base, rfl, link, link.2.1, link.2.2⟩
  | cons p older ih =>
      have link : ParentOf r p := (List.isChain_cons_cons.mp holds.linked).1
      obtain ⟨q, _, _, sameRing, below⟩ := ih holds.tail
      exact ⟨p, rfl, link, sameRing.trans link.2.1, Nat.lt_trans below link.2.2⟩

/-- What a reconstruction relies on at its statements.  `trusts base w` is what it still
knows in `w` of the checkpoint it found, and `saw ids w` of packages it counted. -/
structure Rebuilds (c : Contract World Event) (trusts : ReleaseId → World → Prop)
    (saw : List PackageId → World → Prop) : Prop where
  ordered : ∀ w, c.inv w → w.db.Ordered
  parents : ∀ w, c.inv w → ∀ r ∈ w.db.releases, ∀ p, r.parentId = some p →
    ∃ q ∈ w.db.releases, q.id = p ∧ q.ring = r.ring ∧ q.seq < r.seq
  still : ∀ w, c.guar w w
  found : ∀ w base, Flagged w base → trusts base w
  keeps : ∀ s t, c.rely s t → Keeps s t
  trusted : ∀ s t base, c.rely s t → trusts base s → trusts base t
  counted : ∀ w ids, c.inv w → ids.length ≤ w.db.countPackages ids → saw ids w
  sawKept : ∀ s t ids, c.rely s t → saw ids s → saw ids t
  rows : ∀ w base, c.inv w → c.meets (.checkpointRows base) w → trusts base w →
    w.db.releasePackages base = w.selection base
  deltas : ∀ w (base r : Release), c.inv w → c.meets (.deltas r.id base.id) w →
    trusts base.id w → Known w base → Known w r → base.ring = r.ring → base.seq < r.seq →
    ∀ p, r.parentId = some p → w.selection r.id = (w.db.releaseDeltas r.id).apply (w.selection p)
  write : ∀ w (base r : Release), c.inv w → c.meets (.materialise r.id (some base.id)) w →
    trusts base.id w → Known w base → Known w r → base.ring = r.ring → base.seq < r.seq →
    (∀ chunk ∈ chunks chunkSize ((w.selection r.id).sort (· ≤ ·)), saw chunk w) →
    c.inv (w.commit (w.db.materialise r.id (w.selection r.id))) ∧
      c.guar w (w.commit (w.db.materialise r.id (w.selection r.id)))

/-- The check of a reconstruction's packages only reads: what is stable while it waits holds
at its end, and if it passes so does what it saw of each chunk. -/
theorem checkPresent_spec {c : Contract World Event} (still : ∀ w, c.guar w w)
    (holds : World → Prop) (stable : ∀ s t, c.rely s t → holds s → holds t)
    {saw : List PackageId → World → Prop}
    (counted : ∀ w ids, c.inv w → ids.length ≤ w.db.countPackages ids → saw ids w)
    (sawKept : ∀ s t ids, c.rely s t → saw ids s → saw ids t)
    (releaseId : ReleaseId) (list : List (List PackageId)) {w : World} (inv : c.inv w)
    (start : holds w) :
    (checkPresent releaseId list).Spec c w fun result w' => c.inv w' ∧ holds w' ∧
      (result = .ok () → ∀ chunk ∈ list, saw chunk w') := by
  -- The chunks already asked are carried along with `holds`.
  suffices ∀ (done todo : List (List PackageId)) (w : World), c.inv w → holds w →
      (∀ chunk ∈ done, saw chunk w) → (checkPresent releaseId todo).Spec c w fun result w' =>
        c.inv w' ∧ holds w' ∧ (result = .ok () → ∀ chunk ∈ done ++ todo, saw chunk w') by
    exact this [] list w inv start (by simp)
  intro done todo
  induction todo generalizing done with
  | nil =>
      intro w inv start seen
      exact ⟨inv, start, fun _ chunk member => seen chunk (by simpa using member)⟩
  | cons chunk rest ih =>
      intro w inv start seen
      unfold checkPresent
      refine Program.Spec.bind (Program.spec_query still fun w' moved inv' _ => ?_)
      have held := stable _ _ moved start
      dsimp only
      split
      · exact ⟨inv', held, by simp⟩
      · rename_i enough
        refine (ih (done ++ [chunk]) w' inv' held ?_).mono fun _ _ ended => by simpa using ended
        intro asked member
        rcases List.mem_append.mp member with old | new
        · exact sawKept _ _ _ moved (seen asked old)
        · rw [List.mem_singleton.mp new]
          exact counted w' chunk inv' (by omega)

section Rebuild

variable {c : Contract World Event} {trusts : ReleaseId → World → Prop}
  {saw : List PackageId → World → Prop} (rebuilds : Rebuilds c trusts saw) {flow : World → World → Prop} (refl : ∀ w, flow w w)
  (trans : ∀ a b d, flow a b → flow b d → flow a d) (relied : ∀ a b, c.rely a b → flow a b)
include rebuilds

include refl trans relied in
/-- The walk adds parents until a checkpoint. -/
theorem walk_spec (releaseId : ReleaseId) (room : Nat) (chain : List Release)
    (cur : Release) {w : World} (inv : c.inv w) (holds : Chain w chain)
    (last : chain.getLast? = some cur) (flag : cur.checkpoint = true → Flagged w cur.id) :
    (walk releaseId room chain cur).Spec c w fun result w' => flow w w' ∧ c.inv w' ∧
      ∀ found, result = .ok found → Chain w' found ∧ chain <+: found ∧
        ∃ base, found.getLast? = some base ∧ base.checkpoint = true ∧ Flagged w' base.id := by
  induction room generalizing chain cur w with
  | zero =>
      unfold walk
      split
      · rename_i isCheckpoint
        refine ⟨refl w, inv, ?_⟩
        rintro _ ⟨⟩
        exact ⟨holds, List.prefix_rfl, cur, last, isCheckpoint, flag isCheckpoint⟩
      split
      · exact ⟨refl w, inv, by simp⟩
      refine Program.Spec.bind (Program.spec_query rebuilds.still fun w' moved inv' _ => ?_)
      dsimp only
      split
      · exact ⟨relied _ _ moved, inv', by simp⟩
      · exact ⟨relied _ _ moved, inv', by simp⟩
  | succ room ih =>
      unfold walk
      split
      · rename_i isCheckpoint
        refine ⟨refl w, inv, ?_⟩
        rintro _ ⟨⟩
        exact ⟨holds, List.prefix_rfl, cur, last, isCheckpoint, flag isCheckpoint⟩
      split
      · exact ⟨refl w, inv, by simp⟩
      rename_i parentId isParent
      refine Program.Spec.bind (Program.spec_query rebuilds.still fun w' moved inv' _ => ?_)
      dsimp only
      cases read : w'.db.release? parentId with
      | none => exact ⟨relied _ _ moved, inv', by simp⟩
      | some parent =>
          have ordered := rebuilds.ordered w' inv'
          obtain ⟨member, sameId⟩ := ordered.release?_eq_some.mp read
          -- The row of the parent is the one `parents` speaks of.
          have curKnown := holds.known cur (List.mem_of_getLast? last)
          obtain ⟨row, rowMember, rowEq⟩ := (rebuilds.keeps _ _ moved).known cur curKnown
          have rowParent : row.parentId = some parentId :=
            (Release.parentId_eq rowEq).trans isParent
          obtain ⟨q, qMember, qId, qRing, qSeq⟩ := rebuilds.parents w' inv' row rowMember _ rowParent
          have same : q = parent := by
            have := ordered.release?_of_mem qMember
            rw [qId, read] at this
            exact (Option.some.inj this).symm
          subst same
          have link : ParentOf cur q := by
            refine ⟨isParent.trans (congrArg some qId.symm), ?_, ?_⟩
            · exact qRing.trans (Release.ring_eq rowEq)
            · rw [← Release.seq_eq rowEq]
              exact qSeq
          have longer : Chain w' (chain ++ [q]) := by
            refine ⟨?_, ?_⟩
            · rw [List.isChain_append]
              refine ⟨holds.linked, List.isChain_singleton q, ?_⟩
              intro x isLast y isFirst
              rw [last] at isLast
              simp only [Option.mem_def, Option.some.injEq, List.head?_cons] at isLast isFirst
              subst isLast
              subst isFirst
              exact link
            · intro r inChain
              rcases List.mem_append.mp inChain with old | new
              · exact (rebuilds.keeps _ _ moved).known r (holds.known r old)
              · rw [List.mem_singleton.mp new]
                exact Known.of_mem qMember
          refine (ih (chain ++ [q]) q inv' longer (by simp)
            (fun isCheckpoint => ⟨q, qMember, rfl, isCheckpoint⟩)).mono ?_
          rintro result w'' ⟨further, inv'', after⟩
          refine ⟨trans _ _ _ (relied _ _ moved) further, inv'', fun found ok => ?_⟩
          obtain ⟨chained, grown, base⟩ := after found ok
          exact ⟨chained, (List.prefix_append chain [q]).trans grown, base⟩

include trans relied in
/-- The replay gives the selection of the newest release of the chain. -/
theorem replay_spec (base : Release) (links : List Release) (top : Release) {w : World}
    (holds : Chain w (links ++ [base])) (first : (links ++ [base]).head? = some top)
    (trusted : trusts base.id w) :
    (replay base.id links).Spec c w fun result w' => flow w w' ∧ Keeps w w' ∧ c.inv w' ∧
      trusts base.id w' ∧ ∀ ids, result = .ok ids → ids = w'.selection top.id := by
  induction links generalizing top with
  | nil =>
      obtain rfl : base = top := by simpa using first
      refine Program.spec_query rebuilds.still fun w' moved inv' met => ?_
      have trusted' := rebuilds.trusted _ _ _ moved trusted
      refine ⟨relied _ _ moved, rebuilds.keeps _ _ moved, inv', trusted', ?_⟩
      rintro _ ⟨⟩
      exact rebuilds.rows w' base.id inv' met trusted'
  | cons r older ih =>
      obtain rfl : r = top := by simpa using first
      have tail : Chain w (older ++ [base]) := holds.tail
      obtain ⟨parent, firstOlder, link, sameRing, below⟩ := holds.parent
      refine Program.Spec.bind ((ih parent tail firstOlder).mono ?_)
      rintro (error | ids) w₁ ⟨moved₁, keeps₁, inv₁, trusted₁, replayed⟩
      · exact ⟨moved₁, keeps₁, inv₁, trusted₁, by simp⟩
      refine Program.Spec.bind (Program.spec_query rebuilds.still fun w₂ moved₂ inv₂ met => ?_)
      have trusted₂ := rebuilds.trusted _ _ _ moved₂ trusted₁
      have keeps₂ := rebuilds.keeps _ _ moved₂
      have keeps := keeps₁.trans keeps₂
      refine ⟨trans _ _ _ moved₁ (relied _ _ moved₂), keeps, inv₂, trusted₂, ?_⟩
      rintro _ ⟨⟩
      have rebuilt := rebuilds.deltas w₂ base r inv₂ met trusted₂
        (keeps.known base (holds.known base (by simp))) (keeps.known r (holds.known r (by simp)))
        sameRing below parent.id link.1
      have parentKnown : Known w₁ parent :=
        keeps₁.known parent (tail.known parent (List.mem_of_mem_head? firstOlder))
      rw [rebuilt, replayed ids rfl, ← keeps₂.selection parent parentKnown]

include refl trans relied in
/-- From the row of a release that is no checkpoint: walk, replay and write.  It ends with
the release a checkpoint of its selection. -/
theorem rebuild_spec (written : ∀ w id ids, flow w (w.commit (w.db.materialise id ids)))
    (start : Release) {w : World}
    (inv : c.inv w) (known : Known w start) (unflagged : start.checkpoint = false) :
    (do
      let chain ← walk start.id (checkpointEvery * 4 - 1) [start] start
      let base := (chain.getLast?.getD start).id
      let ids ← replay base chain.dropLast
      writeCheckpoint start.id (some base) ids : Handler Unit).Spec c w fun result w' =>
        flow w w' ∧ c.inv w' ∧ (result = .ok () → Flagged w' start.id) := by
  have single : Chain w [start] :=
    ⟨List.isChain_singleton start, fun r member => by rw [List.mem_singleton.mp member]; exact known⟩
  refine Program.Spec.bind ((walk_spec rebuilds refl trans relied start.id _ [start] start inv single
    rfl (by simp [unflagged])).mono ?_)
  rintro (error | chain) w₁ ⟨moved₁, inv₁, walked⟩
  · exact ⟨moved₁, inv₁, by simp⟩
  obtain ⟨chained, grown, base, isLast, isFlag, flagged⟩ := walked chain rfl
  -- The chain is the release, those between, and the checkpoint.
  obtain ⟨links, rfl⟩ : ∃ links, chain = links ++ [base] := List.getLast?_eq_some_iff.mp isLast
  have first : (links ++ [base]).head? = some start := by
    obtain ⟨tail, eq⟩ := grown
    rw [← eq]
    rfl
  have below : base.ring = start.ring ∧ base.seq < start.seq := by
    cases links with
    | nil =>
        obtain rfl : base = start := by simpa using first
        rw [unflagged] at isFlag
        cases isFlag
    | cons q rest =>
        obtain rfl : q = start := by simpa using first
        obtain ⟨_, _, _, sameRing, below⟩ := chained.parent
        exact ⟨sameRing, below⟩
  have startKnown : Known w₁ start := chained.known start (List.mem_of_mem_head? first)
  simp only [List.getLast?_concat, Option.getD_some, List.dropLast_concat]
  refine Program.Spec.bind ((replay_spec rebuilds trans relied base links start chained first
    (rebuilds.found _ _ flagged)).mono ?_)
  rintro (error | ids) w₂ ⟨moved₂, keeps₂, inv₂, trusted₂, replayed⟩
  · exact ⟨trans _ _ _ moved₁ moved₂, inv₂, by simp⟩
  obtain rfl := replayed ids rfl
  refine Program.Spec.bind ((checkPresent_spec rebuilds.still
    (fun w₃ => flow w₂ w₃ ∧ Keeps w₂ w₃ ∧ trusts base.id w₃) ?_ rebuilds.counted rebuilds.sawKept
    start.id _ inv₂ ⟨refl w₂, Keeps.refl w₂, trusted₂⟩).mono ?_)
  · rintro a b moved ⟨flowed, keeps, trusted⟩
    exact ⟨trans _ _ _ flowed (relied _ _ moved), keeps.trans (rebuilds.keeps _ _ moved),
      rebuilds.trusted _ _ _ moved trusted⟩
  rintro (error | ⟨⟩) w₃ ⟨inv₃, ⟨moved₃, keeps₃, trusted₃⟩, passed⟩
  · exact ⟨trans _ _ _ moved₁ (trans _ _ _ moved₂ moved₃), inv₃, by simp⟩
  refine Program.spec_exec fun w₄ moved₄ inv₄ met => ?_
  have keeps₄ := rebuilds.keeps _ _ moved₄
  have keeps := (keeps₂.trans keeps₃).trans keeps₄
  have startKnown₄ := keeps.known start startKnown
  have baseKnown₄ := keeps.known base (chained.known base (by simp))
  have same := (keeps₃.trans keeps₄).selection start (keeps₂.known start startKnown)
  obtain ⟨kept', guaranteed⟩ := rebuilds.write w₄ base start inv₄ met
    (rebuilds.trusted _ _ _ moved₄ trusted₃) baseKnown₄ startKnown₄ below.1 below.2 (by
      rw [same]
      exact fun chunk member => rebuilds.sawKept _ _ _ moved₄ (passed rfl chunk member))
  rw [same] at kept' guaranteed
  refine ⟨kept', guaranteed, ?_, kept', fun _ => flagged_materialise startKnown₄ _⟩
  exact trans _ _ _ moved₁ (trans _ _ _ moved₂ (trans _ _ _ moved₃
    (trans _ _ _ (relied _ _ moved₄) (written _ _ _))))

end Rebuild

end OmarchyPool
