/-
# OmarchyPool.Promotion -- a promotion serves the release it names

A promotion or a rollback resolves its source to a release first, and its batch later reads
the rows of that release: the live rows of the ring it heads, or its checkpoint rows.  Nothing
in the batch looks again whether they are still the release's.  A sync that moves the source
ring in between is promoted under the name of the release before it (`promotion_moved_source`);
GC that drops the checkpoint leaves the batch an empty base.

`Undisturbed` says, statement by statement, what has to be found as it was: the head a request
read as its parent, the checkpoint a reconstruction started from, the rows a batch is about to
read.  In every run of requests and GC where each statement finds it so, a promotion that
answers serves exactly its source (`promotion_of_undisturbed`).
-/
import OmarchyPool.Diff
import OmarchyPool.Jobs

namespace OmarchyPool

open Lib

set_option autoImplicit false

/-- A promotion or a rollback of everything: a source, and nothing added or removed. -/
def CreateRelease.promotes (body : CreateRelease) : Bool :=
  (body.fromRing.isSome || body.fromReleaseId.isSome) && body.arch.isNone && body.add.isEmpty &&
    body.remove.isEmpty && body.removeFrom.isEmpty

/-- What a checkpoint selects is in its rows; one that selects nothing has none. -/
def World.HoldsRows (w : World) (id : ReleaseId) : Prop :=
  (w.selection id).Nonempty → (w.db.releasePackages id).Nonempty

instance (w : World) (id : ReleaseId) : Decidable (w.HoldsRows id) := by
  unfold World.HoldsRows
  infer_instance

namespace CreateBatch

/-- The batch takes its base as it is. -/
def plain (b : CreateBatch) : Bool := b.remove.isEmpty && b.removeFrom.isEmpty && b.added.isEmpty

/-- The rows the batch is about to read are still those of its source, and every package of
them has its row. -/
def SourceStands (b : CreateBatch) (w : World) : Prop :=
  (match b.source, b.base with
    | some source, .ring ring => w.db.ringHeads ring = some source
    | some _, .release id => w.HoldsRows id
    | _, _ => True) ∧
  ∀ id ∈ b.base.rows w.db, (w.db.package? id).isSome = true

instance (b : CreateBatch) (w : World) : Decidable (b.SourceStands w) := by
  unfold SourceStands
  cases b.source <;> cases b.base <;> infer_instance

end CreateBatch

def Db.isCheckpoint (db : Db) (id : ReleaseId) : Bool := (db.release? id).any (·.checkpoint)

/-- A statement finds what the request goes by as the request found it. -/
def Undisturbed : Event → World → Prop
  | .nextSeq ring parent, w => w.db.ringHeads ring = parent
  | .checkpointRows base, w => w.HoldsRows base
  | .deltas _ base, w => w.db.isCheckpoint base = true
  | .materialise release none, w => (w.db.headRing? release).isSome = true
  | .materialise _ (some base), w => w.db.isCheckpoint base = true
  | .pruneDeltas ring seq, w => w.db.firstCheckpoint ring = some seq
  | .create b, w => b.plain = true → b.SourceStands w
  | _, _ => True

instance (event : Event) (w : World) : Decidable (Undisturbed event w) := by
  apply Event.casesOn (motive := fun event => Decidable (Undisturbed event w)) event <;> intros
  -- a checkpoint is written from another one or from the ring's live rows
  case materialise release base =>
    apply Option.casesOn (motive := fun base => Decidable (Undisturbed (.materialise release base) w)) base <;> intros <;>
      (dsimp only [Undisturbed]; infer_instance)
  all_goals (dsimp only [Undisturbed]; infer_instance)

/-! ## The invariant -/

/-- The rows of a checkpoint are its selection, or GC has taken them. -/
structure Steady (floor : Ring → Nat) (w : World) : Prop extends Rooted floor w where
  rows : ∀ id, w.db.releasePackages id = ∅ ∨ w.db.releasePackages id = w.selection id
  bare : ∀ id, w.db.nextRelease ≤ id → w.db.releasePackages id = ∅

namespace Steady

theorem fresh (packages : List Package) (bucket : String → Option Blob) :
    Steady (fun _ => 1) (World.fresh packages bucket) where
  toRooted := Rooted.fresh (fun _ => Nat.le_refl _) packages bucket
  rows := fun _ => .inl rfl
  bare := fun _ _ => rfl

variable {floor : Ring → Nat} {w : World} (steady : Steady floor w)
include steady

theorem rows_eq {id : ReleaseId} (holds : w.HoldsRows id) :
    w.db.releasePackages id = w.selection id := by
  rcases steady.rows id with none_ | same
  · by_contra differs
    rw [none_] at differs
    have selects := Finset.nonempty_iff_ne_empty.mpr (Ne.symm differs)
    exact (holds selects).ne_empty none_
  · exact same

theorem same {floor' : Ring → Nat} {db : Db} (same : w.db.SameReleases db)
    (live : db.ringPackages = w.db.ringPackages)
    (flags : ∀ r ∈ db.releases, r.checkpoint = true → floor' r.ring ≤ r.seq)
    (raised : ∀ ring, floor ring ≤ floor' ring)
    (low : ∀ ring, floor' ring ≤ max 1 (w.db.ofRing ring).length)
    (deltas : ∀ r ∈ w.db.releases, floor' r.ring < r.seq →
      db.releaseDeltas r.id = w.db.releaseDeltas r.id)
    (rows : ∀ id, db.releasePackages id = ∅ ∨ db.releasePackages id = w.selection id)
    (bare : ∀ id, w.db.nextRelease ≤ id → db.releasePackages id = ∅) :
    Steady floor' (w.commit db) where
  toRooted := steady.toRooted.same same live flags raised low deltas
  rows := by
    rw [World.commit_selection_of_same same]
    exact rows
  bare := by
    rw [World.commit_db, same.next]
    exact bare

theorem materialise {r : Release} (member : r ∈ w.db.releases) (above : floor r.ring ≤ r.seq) :
    Steady floor (w.commit (w.db.materialise r.id (w.selection r.id))) := by
  refine steady.same (Db.sameReleases_materialise _ _ _) rfl ?_ (fun _ => Nat.le_refl _) steady.low
    (fun _ _ _ => rfl) ?_ ?_
  · intro q qMember flag
    simp only [Db.materialise, Db.updateRelease, List.mem_map] at qMember
    obtain ⟨q₀, q₀Member, rfl⟩ := qMember
    by_cases here : q₀.id = r.id
    · obtain rfl := steady.ordered.eq_of_id q₀Member member here
      simpa using above
    · simp only [if_neg here] at flag ⊢
      exact steady.above q₀ q₀Member flag
  · intro id
    by_cases here : id = r.id
    · subst here
      simp only [Db.materialise, Function.update_self]
      rcases steady.rows r.id with empty | own
      · exact .inr (by rw [empty, Finset.empty_union])
      · exact .inr (by rw [own, Finset.union_self])
    · simp only [Db.materialise, Function.update_of_ne here]
      exact steady.rows id
  · intro id new
    have other : id ≠ r.id := Nat.ne_of_gt (Nat.lt_of_lt_of_le (steady.ordered.fresh r member) new)
    simp only [Db.materialise, Function.update_of_ne other]
    exact steady.bare id new

theorem create {b : CreateBatch} (next : b.seq = (w.db.ofRing b.ring).length + 1)
    (parent : b.parent = w.db.ringHeads b.ring) :
    Steady floor (w.commit (w.db.applyRelease b)) where
  toRooted := steady.toRooted.create next parent
  rows := by
    intro id
    rw [World.commit_selection_applyRelease steady.ordered, World.commit_db,
      Db.applyRelease_releasePackages]
    by_cases here : id = w.db.nextRelease
    · subst here
      have empty := steady.bare _ (Nat.le_refl w.db.nextRelease)
      split
      · exact .inr (by simp [empty])
      · exact .inl empty
    · rw [Function.update_of_ne here]
      split
      · rw [Function.update_of_ne here]
        exact steady.rows id
      · exact steady.rows id
  bare := by
    intro id new
    rw [World.commit_db, Db.applyRelease_nextRelease] at new
    have other : id ≠ w.db.nextRelease := Nat.ne_of_gt new
    rw [World.commit_db, Db.applyRelease_releasePackages]
    split
    · rw [Function.update_of_ne other]
      exact steady.bare id (Nat.le_of_succ_le new)
    · exact steady.bare id (Nat.le_of_succ_le new)

/-- What is stored on a release touches none of this. -/
theorem counts (id : ReleaseId) {change : Release → Release}
    (keeps : ∀ r, (change r).fixed = r.fixed ∧ (change r).checkpoint = r.checkpoint) :
    Steady floor (w.commit (w.db.updateRelease id change)) := by
  refine steady.same (Db.sameReleases_updateRelease _ _ _ fun r => (keeps r).1) rfl ?_
    (fun _ => Nat.le_refl _) steady.low (fun _ _ _ => rfl) steady.rows steady.bare
  intro r member flag
  simp only [Db.updateRelease, List.mem_map] at member
  obtain ⟨r₀, member₀, rfl⟩ := member
  split at flag
  · rw [if_pos ‹_›, Release.ring_eq (keeps r₀).1, Release.seq_eq (keeps r₀).1]
    exact steady.above r₀ member₀ ((keeps r₀).2.symm.trans flag)
  · rw [if_neg ‹_›]
    exact steady.above r₀ member₀ flag

/-- Deltas dropped up to a ring's oldest checkpoint: its floor rises to it. -/
theorem pruneDeltas {ring : Ring} {seq : Nat} (oldest : w.db.firstCheckpoint ring = some seq) :
    Steady (Function.update floor ring (max (floor ring) seq)) (w.commit (w.db.pruneDeltas ring seq)) := by
  obtain ⟨top, isTop, topSeq⟩ := List.mem_map.mp (List.min?_mem oldest)
  have bounds := steady.ordered.seq_le (List.mem_filter.mp isTop).1
  refine steady.same ⟨rfl, rfl, rfl⟩ rfl ?_ ?_ ?_ ?_ steady.rows steady.bare
  · intro r member flag
    have bottom := steady.above r member flag
    by_cases here : r.ring = ring
    · subst here
      have least := (List.min?_eq_some_iff.mp oldest).2 _
        (List.mem_map_of_mem (List.mem_filter.mpr ⟨Db.mem_ofRing.mpr ⟨member, rfl⟩, flag⟩))
      rw [Function.update_self]
      exact Nat.max_le.mpr ⟨bottom, least⟩
    · rwa [Function.update_of_ne here]
  · intro other
    by_cases here : other = ring
    · subst here
      rw [Function.update_self]
      exact Nat.le_max_left _ _
    · rw [Function.update_of_ne here]
  · intro other
    have := steady.low other
    by_cases here : other = ring
    · subst here
      rw [Function.update_self]
      omega
    · rwa [Function.update_of_ne here]
  · intro r member above
    simp only [Db.pruneDeltas]
    rw [if_neg]
    simp only [List.any_eq_true, Bool.and_eq_true, beq_iff_eq, decide_eq_true_eq, not_exists, not_and]
    intro q inRing sameId
    obtain rfl := steady.ordered.eq_of_id (Db.mem_ofRing.mp inRing).1 member sameId
    rw [(Db.mem_ofRing.mp inRing).2, Function.update_self] at above
    omega

/-- A statement of GC: the floor of a ring rises to the checkpoint its deltas are dropped up to. -/
theorem collects {event : Event} {write : World → World} (collects : Collects event write)
    (met : Undisturbed event w) : ∃ floor', Steady floor' (write w) := by
  have kept : ∀ {db : Db}, w.db.SameReleases db → db.ringPackages = w.db.ringPackages →
      (∀ r ∈ db.releases, r.checkpoint = true → floor r.ring ≤ r.seq) →
      db.releaseDeltas = w.db.releaseDeltas → db.releasePackages = w.db.releasePackages →
      ∃ floor', Steady floor' (w.commit db) := by
    intro db same live flags deltas rows
    refine ⟨floor, steady.same same live flags (fun _ => Nat.le_refl _) steady.low ?_ ?_ ?_⟩
    · exact fun r _ _ => by rw [deltas]
    · rw [rows]
      exact steady.rows
    · rw [rows]
      exact steady.bare
  cases collects with
  | read => exact ⟨floor, steady⟩
  | pruneRows list =>
      refine ⟨floor, steady.same ⟨rfl, rfl, rfl⟩ rfl steady.above (fun _ => Nat.le_refl _) steady.low
        (fun _ _ _ => rfl) ?_ ?_⟩
      · intro id
        simp only [Db.pruneRows]
        split
        · exact steady.rows id
        · exact .inl rfl
      · intro id new
        simp only [Db.pruneRows]
        split
        · exact steady.bare id new
        · rfl
  | pruneFlags list =>
      refine kept (Db.sameReleases_pruneFlags _ _) rfl ?_ rfl rfl
      intro r member flag
      simp only [Db.pruneFlags, List.mem_map] at member
      obtain ⟨r₀, member₀, rfl⟩ := member
      split at flag
      · rw [if_pos ‹_›]
        exact steady.above r₀ member₀ flag
      · cases flag
  | pruneDeltas ring seq => exact ⟨_, steady.pruneDeltas met⟩
  | deleteObject victim => exact kept ⟨rfl, rfl, rfl⟩ rfl steady.above rfl rfl
  | deleteRow victim =>
      dsimp only
      unfold Db.deleteRow
      split
      · exact kept (.refl _) rfl steady.above rfl rfl
      · exact kept ⟨rfl, rfl, rfl⟩ rfl steady.above rfl rfl

end Steady

/-! ## The contract -/

def steadyContract : Contract World Event where
  inv := fun w => ∃ floor, Steady floor w
  rely := Follows
  guar := Follows
  meets := Undisturbed

theorem flagged_of_isCheckpoint {w : World} {id : ReleaseId} (is : w.db.isCheckpoint id = true) :
    Flagged w id := by
  obtain ⟨r, read, flag⟩ := (Option.any_eq_true _ _).mp is
  exact ⟨r, List.mem_of_find?_eq_some read, by simpa using List.find?_some read, flag⟩

theorem steady_rebuilds : Rebuilds steadyContract (fun _ _ => True) fun _ _ => True where
  ordered := fun _ ⟨_, steady⟩ => steady.ordered
  parents := fun _ ⟨_, steady⟩ _ member _ parent => steady.parent member parent
  still := Follows.refl
  found := fun _ _ _ => trivial
  keeps := fun _ _ follows => follows.keeps
  trusted := fun _ _ _ _ _ => trivial
  counted := fun _ _ _ _ => trivial
  sawKept := fun _ _ _ _ _ => trivial
  rows := fun _ _ ⟨_, steady⟩ met _ => steady.rows_eq met
  deltas := fun _ _ _ ⟨_, steady⟩ met _ known isKnown sameRing below _ parent =>
    steady.deltas_above (flagged_of_isCheckpoint met) known isKnown sameRing below parent
  write := by
    rintro w base r ⟨floor, steady⟩ met - known ⟨row, member, eq⟩ sameRing below -
    have bottom := steady.above_known (flagged_of_isCheckpoint met) known
    rw [← Release.id_eq eq]
    refine ⟨⟨floor, steady.materialise member ?_⟩, .same (Db.sameReleases_materialise _ _ _)⟩
    rw [Release.ring_eq eq, Release.seq_eq eq, ← sameRing]
    omega

/-- With other requests in between, `ensureCheckpoint` writes the release's selection or nothing. -/
theorem steady_ensureCheckpoint (id : ReleaseId) (w : World) :
    (ensureCheckpoint id).Spec steadyContract w fun _ w' => Follows w w' ∧ steadyContract.inv w' := by
  have written : ∀ w id ids, Follows w (w.commit (w.db.materialise id ids)) :=
    fun _ _ _ => .same (Db.sameReleases_materialise _ _ _)
  unfold ensureCheckpoint
  refine Program.Spec.bind (Program.spec_query Follows.refl fun w₁ moved₁ inv₁ _ => ?_)
  dsimp only
  cases read : w₁.db.release? id with
  | none => exact ⟨moved₁, inv₁⟩
  | some start =>
  have ⟨_, steady₁⟩ := inv₁
  obtain ⟨member, rfl⟩ := steady₁.ordered.release?_eq_some.mp read
  dsimp only
  split
  · exact ⟨moved₁, inv₁⟩
  rename_i plain
  refine Program.Spec.bind (Program.spec_query Follows.refl fun w₂ moved₂ inv₂ _ => ?_)
  have known : Known w₂ start := moved₂.keeps.known start (Known.of_mem member)
  have moved := moved₁.trans moved₂
  dsimp only
  cases found : w₂.db.headRing? start.id with
  | none =>
      refine (rebuild_spec steady_rebuilds Follows.refl (fun _ _ _ => Follows.trans) (fun _ _ h => h)
        written start inv₂ known (by simpa using plain)).mono ?_
      exact fun _ _ ended => ⟨moved.trans ended.1, ended.2.1⟩
  | some ring =>
      have head : w₂.db.ringHeads ring = some start.id := by simpa using List.find?_some found
      refine Program.Spec.bind (Program.spec_query Follows.refl fun w₃ moved₃ inv₃ _ => ?_)
      refine Program.Spec.bind ((checkPresent_spec Follows.refl (Follows w₃)
        (fun _ _ next soFar => soFar.trans next) (fun _ _ _ _ => trivial) (fun _ _ _ _ _ => trivial)
        start.id _ inv₃ (Follows.refl w₃)).mono ?_)
      rintro (error | ⟨⟩) w₄ ⟨inv₄, moved₄, -⟩
      · exact ⟨(moved.trans moved₃).trans moved₄, inv₄⟩
      refine Program.spec_exec fun w₅ moved₅ inv₅ met => ?_
      have later := moved₄.trans moved₅
      have ⟨_, steady₂⟩ := inv₂
      have ⟨_, steady₃⟩ := inv₃
      obtain ⟨floor, steady⟩ := inv₅
      -- Still a head now, so it was one when the live rows were read.
      obtain ⟨ring', isHead⟩ := Option.isSome_iff_exists.mp met
      have head' : w₅.db.ringHeads ring' = some start.id := by simpa using List.find?_some isHead
      have between := moved₃.head_between later steady₂.ordered head head'
      obtain ⟨row, rowMember, rowId, rowSeq⟩ := steady.ordered.head_row head'
      obtain ⟨inTable, rowRing⟩ := Db.mem_ofRing.mp rowMember
      have selection : w₃.db.ringPackages ring = w₅.selection row.id := by
        rw [steady₃.live ring start.id between, rowId]
        exact (later.keeps.selection start (moved₃.keeps.known start known)).symm
      have bounds := steady.ordered.seq_le rowMember
      have low := steady.low ring'
      have kept : ∃ floor, Steady floor (w₅.commit (w₅.db.materialise start.id (w₃.db.ringPackages ring))) := by
        rw [selection, ← rowId]
        exact ⟨floor, steady.materialise inTable (by rw [rowRing]; omega)⟩
      exact ⟨kept, written _ _ _, ((moved.trans moved₃).trans later).trans (written _ _ _), kept⟩

theorem steady_serves :
    Serves steadyContract Follows Follows (fun _ _ => True) fun _ _ _ => True where
  refl := Follows.refl
  trans := fun _ _ _ => Follows.trans
  relied := fun _ _ h => h
  still := Follows.refl
  laterRefl := Follows.refl
  laterTrans := fun _ _ _ => Follows.trans
  laterRelied := fun _ _ h => h
  ensure := fun id w _ => (steady_ensureCheckpoint id w).mono fun _ _ ended =>
    ⟨ended.1, ended.1, ended.2, fun _ => trivial⟩
  headLists := fun _ _ _ _ _ => trivial
  rowsList := fun _ _ _ _ => trivial
  listsKept := fun _ _ _ _ _ _ => trivial
  counts := fun id _ _ b _ _ _ _ ⟨floor, steady⟩ stores =>
    have same := Db.sameReleases_updateRelease b.db id _ fun r => (stores.keeps r).1
    ⟨⟨floor, steady.counts id stores.keeps⟩, .same same, .same same⟩

theorem steady_batch {body : CreateRelease} {reads : Reads} {now : World}
    (hold : reads.Hold steadyContract Follows (fun _ _ => True) body now) {floor : Ring → Nat}
    (steady : Steady floor now) {db' : Db}
    (done : Db.createRelease (reads.batch body) now.db = .ok db') :
    db' = now.db.applyRelease (reads.batch body) ∧ Steady floor (now.commit db') ∧
      Follows now (now.commit db') := by
  obtain ⟨_, before⟩ := hold.invSeq
  have follows := (hold.toBase.trans hold.toLast).trans hold.toNow
  obtain ⟨next, parent, rfl⟩ := hold.next before.ordered steady.ordered follows.grown hold.seqMet done
  exact ⟨rfl, steady.create next parent, .create steady.ordered next⟩

/-! ## What a promotion answers -/

/-- The batch of a promotion takes the selection of its source. -/
theorem target_of_plain {b : CreateBatch} {db : Db} (plain : b.plain = true)
    (there : ∀ id ∈ b.base.rows db, (db.package? id).isSome = true) : b.target db = b.base.rows db := by
  simp only [CreateBatch.plain, Bool.and_eq_true, List.isEmpty_iff] at plain
  obtain ⟨⟨noRemove, noRemoveFrom⟩, noAdd⟩ := plain
  simp only [CreateBatch.target, noAdd, List.toFinset_nil, Finset.union_empty, Db.select]
  refine Finset.filter_true_of_mem fun id member => ?_
  obtain ⟨p, found⟩ := Option.isSome_iff_exists.mp (there id member)
  simp [found, CreateBatch.removes, CreateBatch.replaces, noRemove, noRemoveFrom, noAdd]

/-- The release of an answer serves the selection of the release it names as its source. -/
structure ServesSource (created : Created) (w : World) : Prop where
  known : Known w created.release
  source : ∃ source, Known w source ∧ created.release.sourceId = some source.id ∧
    w.selection created.release.id = w.selection source.id

theorem ServesSource.later {created : Created} {w w' : World} (serves : ServesSource created w)
    (keeps : Keeps w w') : ServesSource created w' := by
  obtain ⟨source, known, isSource, same⟩ := serves.source
  refine ⟨keeps.known _ serves.known, source, keeps.known _ known, isSource, ?_⟩
  rw [keeps.selection _ serves.known, keeps.selection _ known, same]

/-- The rows a promotion's batch reads are its source's selection. -/
theorem promotion_base {body : CreateRelease} (promotes : body.promotes = true) {reads : Reads}
    {now : World} (hold : reads.Hold steadyContract Follows (fun _ _ => True) body now)
    {floor : Ring → Nat} (steady : Steady floor now) (stands : (reads.batch body).SourceStands now) :
    ∃ source, reads.source = some source ∧ Known now source ∧
      reads.base.rows now.db = now.selection source.id := by
  simp only [CreateRelease.promotes, Bool.and_eq_true, Bool.or_eq_true, Option.isNone_iff_eq_none] at promotes
  obtain ⟨⟨⟨⟨sourced, noArch⟩, -⟩, -⟩, -⟩ := promotes
  have noOnly : reads.onlyArch = none := hold.noOnlyArch noArch
  have toNow := ((((hold.toParent.trans hold.toAdds).trans hold.toSeq).trans hold.toBase).trans
    hold.toLast).trans hold.toNow
  obtain ⟨_, atSource⟩ := hold.invSource
  -- The body names a source, so one was read.
  obtain ⟨source, isSource, member⟩ : ∃ source, reads.source = some source ∧
      source ∈ reads.atSource.db.releases := by
    have read := hold.source
    cases is : reads.source with
    | none =>
        rw [is] at read
        cases read with
        | none noId noRing => simp [noId, noRing] at sourced
    | some source =>
        refine ⟨source, rfl, ?_⟩
        rw [is] at read
        cases read with
        | release _ found _ => exact List.mem_of_find?_eq_some found
        | head _ _ _ _ _ found =>
            obtain ⟨_, _, found⟩ := Option.bind_eq_some_iff.mp found
            exact List.mem_of_find?_eq_some found
  refine ⟨source, isSource, toNow.keeps.known source (Known.of_mem member), ?_⟩
  have named : (reads.batch body).source = some source.id := by simp [Reads.batch, isSource]
  have stands := stands.1
  rw [named] at stands
  have based : (reads.batch body).base = reads.base := rfl
  rw [based] at stands
  have base := hold.base
  rw [isSource, noOnly] at base
  generalize reads.base = read at base stands
  generalize reads.parent = parent at base
  cases base with
  | same _ => exact steady.live _ _ stands
  | live _ _ => exact steady.live _ _ stands
  | rows _ _ => exact steady.rows_eq stands

/-- The release an answer is about is the one the batch made, with the source it was bound with. -/
theorem answered_row {b : CreateBatch} {now : World} (ordered : now.db.Ordered)
    (next : b.seq = (now.db.ofRing b.ring).length + 1) {created : Created} {w : World}
    (answered : Answered Follows b (now.commit (now.db.applyRelease b)) created w) :
    Follows (now.commit (now.db.applyRelease b)) w ∧
      created.release.fixed = (b.row now.db.nextRelease).fixed := by
  obtain ⟨w₁, w₂, made₁, moved₂, moved, row, found, read⟩ := answered.read
  refine ⟨(made₁.trans moved₂).trans moved, ?_⟩
  have ordered₁ := made₁.ordered (ordered.applyRelease next)
  have ordered₂ := moved₂.ordered ordered₁
  obtain ⟨made, madeMember, madeEq⟩ := made₁.keeps.known (b.row now.db.nextRelease)
    (Known.of_mem (by simp))
  -- Of its ring and its seq there is one release.
  have inRing : made ∈ w₁.db.ofRing b.ring :=
    Db.mem_ofRing.mpr ⟨madeMember, Release.ring_eq madeEq⟩
  obtain rfl : row = made := by
    refine ordered₁.seq_injective (List.mem_of_find?_eq_some found) inRing ?_
    rw [Release.seq_eq madeEq]
    simpa [CreateBatch.row] using List.find?_some found
  obtain ⟨last, lastMember, lastEq⟩ := moved₂.keeps.known row (Known.of_mem madeMember)
  obtain ⟨member, sameId⟩ := ordered₂.release?_eq_some.mp read
  obtain rfl := ordered₂.eq_of_id member lastMember (sameId.trans (Release.id_eq lastEq).symm)
  exact lastEq.trans madeEq

theorem promotion_served {body : CreateRelease} (promotes : body.promotes = true) {w : World}
    (inv : steadyContract.inv w) :
    (handleCreateRelease body).Spec steadyContract w fun result w' =>
      ∀ created, result = .ok created → ServesSource created w' := by
  refine (create_spec steady_serves body ?_ inv).mono ?_
  · rintro reads now hold - ⟨floor, steady⟩ - db' done
    obtain ⟨-, kept, follows⟩ := steady_batch hold steady done
    exact ⟨⟨floor, kept⟩, follows⟩
  rintro result w' ⟨-, answers⟩ created ok
  obtain ⟨reads, now, db', hold, -, ⟨floor, steady⟩, met, done, answered⟩ := answers created ok
  have plain : (reads.batch body).plain = true := by
    have isPromotion := promotes
    simp only [CreateRelease.promotes, Bool.and_eq_true] at isPromotion
    obtain ⟨⟨⟨-, noAdd⟩, noRemove⟩, noRemoveFrom⟩ := isPromotion
    have none : reads.added = [] := by
      rw [hold.added, List.isEmpty_iff.mp noAdd]
      rfl
    simp [CreateBatch.plain, Reads.batch, none, noRemove, noRemoveFrom]
  have stands : (reads.batch body).SourceStands now := met plain
  obtain ⟨source, isSource, known, base⟩ := promotion_base promotes hold steady stands
  have target : (reads.batch body).target now.db = now.selection source.id :=
    (target_of_plain plain stands.2).trans base
  obtain ⟨_, before⟩ := hold.invSeq
  obtain ⟨next, -, rfl⟩ := hold.next before.ordered steady.ordered
    ((hold.toBase.trans hold.toLast).trans hold.toNow).grown hold.seqMet done
  obtain ⟨later, fixed⟩ := answered_row steady.ordered next answered
  have made := Keeps.create steady.ordered (reads.batch body)
  refine ServesSource.later ⟨?_, source, made.known source known, ?_, ?_⟩ later.keeps
  · exact (Known.of_mem (by simp)).of_fixed fixed
  · rw [show created.release.sourceId = (reads.batch body).source from congrArg (·.2.2.2.2) fixed]
    simp [Reads.batch, isSource]
  · have isNew : created.release.id = now.db.nextRelease := Release.id_eq fixed
    rw [made.selection source known, isNew, World.commit_selection_applyRelease steady.ordered,
      Function.update_self, target]

theorem steady_gc (params : GcParams) {w : World} (inv : steadyContract.inv w) :
    (handleGc params).Spec steadyContract w fun _ w' => Follows w w' ∧ steadyContract.inv w' := by
  refine Program.Only.spec Follows (fun _ _ _ => Follows.trans) Follows.refl (fun _ _ h => h)
    (fun _ _ h => h) ?_ (gc_only params) inv
  rintro event write collects now ⟨floor, steady⟩ met
  refine ⟨steady.collects collects met, ?_⟩
  obtain ⟨db, eq, same, -⟩ := sameReleases_collects collects now
  rw [eq]
  exact .same same

/-- Any number of requests and GC runs at once: where every statement finds what its request
goes by as the request found it, a promotion or a rollback that answers has made a release
whose selection is that of the release it names as its source. -/
theorem promotion_of_undisturbed {packages : List Package} {bucket : String → Option Blob}
    {config : Config World Job Event Failure (Option Created)}
    (reached : Reachable Job.serve Undisturbed (World.fresh packages bucket) config)
    {body : CreateRelease} (promotes : body.promotes = true) {created : Created}
    (answered : (Job.create body, Program.pure (some created)) ∈ config.threads) :
    ∃ source, created.release.sourceId = some source ∧
      config.store.selection created.release.id = config.store.selection source := by
  let post : Job → Except Failure (Option Created) → World → Prop
    | .create body, result, w => body.promotes = true →
        ∀ created, result = .ok (some created) → ServesSource created w
    | .gc _, _, _ => True
  have served : ∀ job w, steadyContract.inv w → (Job.serve job).Spec steadyContract w (post job) := by
    intro job w inv
    cases job with
    | gc params =>
        refine Program.Spec.bind ((steady_gc params inv).mono ?_)
        rintro (error | report) _ _ <;> trivial
    | create body =>
        by_cases isPromotion : body.promotes = true
        · refine Program.Spec.bind ((promotion_served isPromotion inv).mono ?_)
          rintro (error | made) w' serves
          · intro _ _ ok
            cases ok
          · rintro _ _ ⟨⟩
            exact serves made rfl
        · refine Program.Spec.bind ((create_spec steady_serves body ?_ inv).mono ?_)
          · rintro reads now hold - ⟨floor, steady⟩ - db' done
            obtain ⟨-, kept, follows⟩ := steady_batch hold steady done
            exact ⟨⟨floor, kept⟩, follows⟩
          · rintro (error | made) w' _ promotes
            · exact absurd promotes isPromotion
            · exact absurd promotes isPromotion
  obtain ⟨-, flying⟩ := reachable_spec steadyContract post Follows.refl (fun _ _ _ => Follows.trans)
    (fun _ _ h => h) ⟨_, Steady.fresh packages bucket⟩ served reached
  obtain ⟨seen, relied, ended⟩ := flying _ answered
  obtain ⟨-, source, -, isSource, same⟩ := (ended promotes created rfl).later relied.keeps
  exact ⟨source.id, isSource, same⟩

/-! ## Two runs -/

def promotionStart : World :=
  .fresh [.sample 1 'a' "core" "bash", .sample 2 'b' "core" "curl"] fun _ => none

/-- Edge's first release, its promotion to rc, and a sync that adds a package to edge. -/
def edgeFirst : CreateRelease := { ring := "edge", add := [Package.sampleHash 'a'] }
def edgeToRc : CreateRelease := { ring := "rc", fromRing := some "edge" }
def edgeSync : CreateRelease := { ring := "edge", add := [Package.sampleHash 'b'] }

/-- The promotion runs alone. -/
def quietRun : List (Move Job) :=
  .spawn (.create edgeFirst) :: List.replicate 16 (.run 0) ++
    .spawn (.create edgeToRc) :: List.replicate 16 (.run 1)

/-- What the promotion answers: release 2, of rc, from release 1. -/
def promoted : Created :=
  ⟨⟨2, .rc, 1, none, some 1, none, true, some 1, some 1, some [⟨"core", .x86_64, 1, 1⟩]⟩, ⟨1, 1⟩, []⟩

theorem promotion_of_quietRun :
    ∃ config : Config World Job Event Failure (Option Created),
      Reachable Job.serve Undisturbed promotionStart config ∧
      (Job.create edgeToRc, Program.pure (some promoted)) ∈ config.threads ∧
      ∃ source, promoted.release.sourceId = some source ∧
        config.store.selection promoted.release.id = config.store.selection source :=
  have reached := reachable_moves Job.serve Undisturbed promotionStart quietRun (by decide)
  have answered : (Job.create edgeToRc, Program.pure (some promoted)) ∈
      (quietRun.foldl (Config.move Job.serve) ⟨promotionStart, []⟩).threads :=
    Config.mem_of_answers (by decide)
  ⟨_, reached, answered, promotion_of_undisturbed reached (by decide) answered⟩

/-- The promotion has read what it needs for its batch when the sync makes release 2 of edge. -/
def movedRun : List (Move Job) :=
  .spawn (.create edgeFirst) :: List.replicate 5 (.run 0) ++
    .spawn (.create edgeToRc) :: List.replicate 5 (.run 1) ++
    .spawn (.create edgeSync) :: List.replicate 5 (.run 2) ++ List.replicate 11 (.run 1)

/-- What it answers then: release 3, of rc, still from release 1. -/
def promotedMoved : Created :=
  ⟨⟨3, .rc, 1, none, some 1, none, true, some 2, some 2, some [⟨"core", .x86_64, 2, 2⟩]⟩, ⟨2, 2⟩, []⟩

/-- Release 3 names release 1 as its source and serves what the sync added after it. -/
theorem promotion_moved_source :
    ¬ ∀ (packages : List Package) (bucket : String → Option Blob)
      (config : Config World Job Event Failure (Option Created)),
      Reachable Job.serve Unrestricted (World.fresh packages bucket) config →
      ∀ body : CreateRelease, body.promotes = true → ∀ created,
        (Job.create body, Program.pure (some created)) ∈ config.threads →
        ∃ source, created.release.sourceId = some source ∧
          config.store.selection created.release.id = config.store.selection source := by
  intro law
  have reached := reachable_moves Job.serve Unrestricted promotionStart movedRun (by decide)
  obtain ⟨source, isSource, same⟩ := law _ _ _ reached edgeToRc (by decide) promotedMoved
    (Config.mem_of_answers (by decide))
  cases isSource
  exact absurd same (by decide)

end OmarchyPool
