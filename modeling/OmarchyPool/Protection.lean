/-
# OmarchyPool.Protection -- what retention protects can be served again

GC that always keeps `keep` releases of each ring leaves the newest `keep` of them
reconstructable.  Three things make it so:

* a checkpoint is never far: one is written every `checkpointEvery` releases, and GC keeps
  every one from the floor of the ring on (`Protected.dense`), so the walk ends within its room;
* the packages are there: what a protected release lists is served, or a protected release
  after it removed it and its delta names it (`protected_named`);
* the objects are there, because GC deletes an object only with the last row that names it
  (`Objects`).
-/
import OmarchyPool.Objects

namespace OmarchyPool

open Lib

set_option autoImplicit false

/-- The release is one of the ring's newest `keep`. -/
def Db.Newest (db : Db) (keep : Nat) (r : Release) : Prop :=
  r ∈ db.releases ∧ (db.ofRing r.ring).length < r.seq + keep

/-- Every id has a row in `packages`. -/
def Db.Present (db : Db) (ids : Finset PackageId) : Prop := ∀ id ∈ ids, ∃ p ∈ db.packages, p.id = id

/-- What every store keeps, besides `Exact`, when GC always keeps `keep` releases. -/
structure Protected (keep : Nat) (floor : Ring → Nat) (w : World) : Prop where
  near : ∀ ring, floor ring ≤ max 1 ((w.db.ofRing ring).length + 1 - keep)
  dense : ∀ ring seq, floor ring ≤ seq → 1 ≤ seq → seq ≤ (w.db.ofRing ring).length →
    ∃ r ∈ w.db.ofRing ring, Flagged w r.id ∧ r.seq ≤ seq ∧ seq < r.seq + checkpointEvery
  present : ∀ r, w.db.Newest keep r → w.db.Present (w.selection r.id)
  ids : (w.db.packages.map (·.id)).Nodup
  stored : Stored w.db

/-- Of it, what says that a checkpoint is near. -/
structure Dense (keep : Nat) (floor : Ring → Nat) (w : World) : Prop where
  near : ∀ ring, floor ring ≤ max 1 ((w.db.ofRing ring).length + 1 - keep)
  dense : ∀ ring seq, floor ring ≤ seq → 1 ≤ seq → seq ≤ (w.db.ofRing ring).length →
    ∃ r ∈ w.db.ofRing ring, Flagged w r.id ∧ r.seq ≤ seq ∧ seq < r.seq + checkpointEvery

/-- A release of one world is, up to its flag and counts, one of another with the same rows. -/
theorem row_of_same {db db' : Db} (same : db.SameReleases db') {ring : Ring} {r : Release}
    (member : r ∈ db.ofRing ring) : ∃ r' ∈ db'.ofRing ring, r'.fixed = r.fixed := by
  obtain ⟨inTable, sameRing⟩ := Db.mem_ofRing.mp member
  obtain ⟨r', member', eq⟩ := same.exists_fixed inTable
  exact ⟨r', Db.mem_ofRing.mpr ⟨member', (Release.ring_eq eq).trans sameRing⟩, eq⟩

theorem Dense.fresh (packages : List Package) (bucket : String → Option Blob) (keep : Nat) :
    Dense keep (fun _ => 1) (World.fresh packages bucket) where
  near := fun _ => Nat.le_max_left _ _
  dense := by
    intro ring seq _ low high
    have : (World.fresh packages bucket).db.ofRing ring = [] := rfl
    rw [this] at high
    simp only [List.length_nil] at high
    omega

theorem Dense.stable (keep : Nat) (floor : Ring → Nat) (w w' : World) (settled : Recounted w w')
    (kept : Dense keep floor w) : Dense keep floor w' where
  near := by
    intro ring
    rw [settled.releases.length_ofRing]
    exact kept.near ring
  dense := by
    intro ring seq above low high
    rw [settled.releases.length_ofRing] at high
    obtain ⟨r, member, flag, below, within⟩ := kept.dense ring seq above low high
    obtain ⟨r', member', eq⟩ := row_of_same settled.releases member
    refine ⟨r', member', ?_, ?_, ?_⟩
    · rw [Release.id_eq eq]
      exact settled.flags _ flag
    · rw [Release.seq_eq eq]
      exact below
    · rw [Release.seq_eq eq]
      exact within

namespace Protected

theorem fresh {packages : List Package} {bucket : String → Option Blob}
    (ids : (packages.map (·.id)).Nodup) (indexed : ∀ p ∈ packages, p.indexed = true)
    (objects : ∀ p ∈ packages, p.ghost = false → (bucket p.key).isSome = true) (keep : Nat) :
    Protected keep (fun _ => 1) (World.fresh packages bucket) where
  near := (Dense.fresh packages bucket keep).near
  dense := (Dense.fresh packages bucket keep).dense
  present := by
    rintro r ⟨member, -⟩
    simp [World.fresh] at member
  ids := ids
  stored := ⟨indexed, objects⟩

theorem toDense {keep : Nat} {floor : Ring → Nat} {w : World} (kept : Protected keep floor w) :
    Dense keep floor w := ⟨kept.near, kept.dense⟩

theorem stable (keep : Nat) (floor : Ring → Nat) (w w' : World) (settled : Recounted w w')
    (kept : Protected keep floor w) : Protected keep floor w' where
  near := (Dense.stable keep floor w w' settled kept.toDense).near
  dense := (Dense.stable keep floor w w' settled kept.toDense).dense
  present := by
    rintro r ⟨member, newest⟩
    rw [settled.releases.length_ofRing] at newest
    obtain ⟨r₀, member₀, eq⟩ := settled.releases.symm.exists_fixed member
    rw [← Release.ring_eq eq, ← Release.seq_eq eq] at newest
    rw [settled.selection, ← Release.id_eq eq]
    intro id inSelection
    rw [settled.packages]
    exact kept.present r₀ ⟨member₀, newest⟩ id inSelection
  ids := by
    rw [settled.packages]
    exact kept.ids
  stored := kept.stored.fewer settled.bucket fun p member => by rwa [settled.packages] at member

end Protected

/-! ## A new release -/

/-- `MAX(seq)` over a ring's checkpoints is the seq of one, when there is one. -/
theorem lastCheckpoint_row {db : Db} {ring : Ring} {r : Release} (member : r ∈ db.ofRing ring)
    (flag : r.checkpoint = true) :
    ∃ q ∈ db.ofRing ring, q.checkpoint = true ∧ q.seq = db.lastCheckpoint ring := by
  have attained : ∀ rows : List Release, rows ≠ [] →
      ∃ q ∈ rows, q.seq = (rows.map (·.seq)).foldr max 0 := by
    intro rows
    induction rows with
    | nil => simp
    | cons a rows ih =>
        intro _
        by_cases empty : rows = []
        · subst empty
          exact ⟨a, by simp, by simp⟩
        · obtain ⟨q, inRows, seq⟩ := ih empty
          rw [List.map_cons, List.foldr_cons]
          rcases Nat.le_total a.seq ((rows.map (·.seq)).foldr max 0) with le | le
          · exact ⟨q, List.mem_cons_of_mem _ inRows, by rw [Nat.max_eq_right le]; exact seq⟩
          · exact ⟨a, List.mem_cons_self, (Nat.max_eq_left le).symm⟩
  have inFlagged : r ∈ (db.ofRing ring).filter (·.checkpoint) := List.mem_filter.mpr ⟨member, flag⟩
  obtain ⟨q, qIn, seq⟩ := attained _ (List.ne_nil_of_mem inFlagged)
  obtain ⟨qMember, qFlag⟩ := List.mem_filter.mp qIn
  exact ⟨q, qMember, qFlag, seq⟩

/-- The target of a batch lists rows the index has, when its adds were read in the same index. -/
theorem target_present {db : Db} (b : CreateBatch)
    (added : ∀ id ∈ b.added, ∃ p ∈ db.packages, p.id = id) : db.Present (b.target db) := by
  intro id member
  simp only [CreateBatch.target, Finset.mem_union, Db.select, Finset.mem_filter,
    List.mem_toFinset] at member
  rcases member with ⟨-, found⟩ | isAdded
  · obtain ⟨p, read, -⟩ := Option.any_eq_true _ _ |>.mp found
    exact ⟨p, List.mem_of_find?_eq_some read, by simpa using List.find?_some read⟩
  · exact added id isAdded

theorem Db.length_applyRelease (db : Db) (b : CreateBatch) (ring : Ring) :
    ((db.applyRelease b).ofRing ring).length =
      (db.ofRing ring).length + if b.ring = ring then 1 else 0 := by
  rw [Db.applyRelease_ofRing]
  split <;> simp

/-- A batch that writes no checkpoint has one of the ring behind it, within
`checkpointEvery`. -/
theorem lastCheckpoint_near {keep : Nat} (some_ : 1 ≤ keep) {more : (Ring → Nat) → World → Prop}
    (dense : ∀ floor w, more floor w → Dense keep floor w) {body : CreateRelease} {reads : Reads}
    {now : World}
    (hold : reads.Hold (onItsOwn (Sound more)) Settled (fun id w => Flagged w id) body now)
    {floor : Ring → Nat} (inv : Exact floor now) (plain : (reads.batch body).checkpoint = false)
    (next : (reads.batch body).seq = (now.db.ofRing reads.ring).length + 1)
    (parent : (reads.batch body).parent = now.db.ringHeads reads.ring) :
    ∃ q ∈ now.db.ofRing reads.ring, Flagged now q.id ∧ q.seq ≤ (now.db.ofRing reads.ring).length ∧
      (now.db.ofRing reads.ring).length + 1 < q.seq + checkpointEvery := by
  simp only [Reads.batch, Bool.or_eq_false_iff, decide_eq_false_iff_not] at plain
  obtain ⟨hasParent, recent⟩ := plain
  obtain ⟨floor', atLast, rest⟩ := hold.invLast
  have kept' := dense floor' reads.atLast rest
  have settled := hold.toNow
  have length := settled.releases.length_ofRing reads.ring
  have someRelease : 1 ≤ (now.db.ofRing reads.ring).length := by
    cases isParent : reads.parent with
    | none => simp [isParent] at hasParent
    | some p =>
        have head : now.db.ringHeads reads.ring = some p.id := by
          rw [← parent]
          simp [Reads.batch, isParent]
        obtain ⟨r, member, -, -⟩ := inv.ordered.head_row head
        have := inv.ordered.seq_le member
        omega
  have near := kept'.near reads.ring
  obtain ⟨r, member, ⟨row, rowMember, sameId, flag⟩, -, -⟩ := kept'.dense reads.ring
    (now.db.ofRing reads.ring).length (by omega) someRelease (by omega)
  obtain rfl := atLast.ordered.eq_of_id rowMember (Db.mem_ofRing.mp member).1 sameId
  obtain ⟨q, qMember, qFlag, qSeq⟩ := lastCheckpoint_row member flag
  obtain ⟨q', qMember', eq⟩ := row_of_same settled.releases qMember
  have bounds := inv.ordered.seq_le qMember'
  have isLast : q'.seq = reads.last := (Release.seq_eq eq).trans (qSeq.trans hold.last.symm)
  refine ⟨q', qMember', ?_, bounds.2, ?_⟩
  · rw [Release.id_eq eq]
    exact settled.flags _ ⟨q, (Db.mem_ofRing.mp qMember).1, rfl, qFlag⟩
  · have seq : reads.atSeq.db.maxSeq reads.ring + 1 = (now.db.ofRing reads.ring).length + 1 := next
    omega

theorem dense_create {keep : Nat} (some_ : 1 ≤ keep) {more : (Ring → Nat) → World → Prop}
    (dense : ∀ floor w, more floor w → Dense keep floor w) (body : CreateRelease) {floor : Ring → Nat}
    {reads : Reads} {now : World}
    (hold : reads.Hold (onItsOwn (Sound more)) Settled (fun id w => Flagged w id) body now)
    (inv : Exact floor now) (rest : more floor now)
    (next : (reads.batch body).seq = (now.db.ofRing reads.ring).length + 1)
    (parent : (reads.batch body).parent = now.db.ringHeads reads.ring) :
    Dense keep floor (now.commit (now.db.applyRelease (reads.batch body))) := by
  have kept := dense floor now rest
  generalize batch : reads.batch body = b at next parent
  have sameRing : b.ring = reads.ring := by rw [← batch]; rfl
  rw [← sameRing] at next parent
  have lengths := now.db.length_applyRelease b
  have flags : ∀ id, Flagged now id → Flagged (now.commit (now.db.applyRelease b)) id := by
    rintro id ⟨r, member, rest⟩
    exact ⟨r, by simp [member], rest⟩
  refine ⟨?_, ?_⟩
  · intro ring
    have := kept.near ring
    rw [World.commit_db, lengths]
    split <;> omega
  · intro ring seq above low high
    rw [World.commit_db, lengths] at high
    have older : ∀ r, r ∈ now.db.ofRing ring → r ∈ (now.db.applyRelease b).ofRing ring := by
      intro r member
      rw [Db.applyRelease_ofRing]
      split
      · exact List.mem_append_left _ member
      · exact member
    by_cases old : seq ≤ (now.db.ofRing ring).length
    · obtain ⟨r, member, flag, rest⟩ := kept.dense ring seq above low old
      exact ⟨r, older r member, flags _ flag, rest⟩
    · -- The new release itself, or the last checkpoint before it.
      have here : b.ring = ring := by
        by_contra other
        rw [if_neg other] at high
        omega
      subst here
      rw [if_pos rfl] at high
      have newRow : b.row now.db.nextRelease ∈ (now.db.applyRelease b).ofRing b.ring := by
        rw [Db.applyRelease_ofRing, if_pos rfl]
        simp
      cases flag : b.checkpoint with
      | true =>
          refine ⟨_, newRow, ⟨b.row now.db.nextRelease, by simp, rfl, flag⟩, ?_, ?_⟩
          · simp only [CreateBatch.row, next]
            omega
          · simp only [CreateBatch.row, next, checkpointEvery]
            omega
      | false =>
          obtain ⟨q, qMember, qFlag, qSeq, within⟩ := lastCheckpoint_near some_ dense hold inv
            (by rw [batch]; exact flag) (by rw [batch, ← sameRing]; exact next)
            (by rw [batch, ← sameRing]; exact parent)
          rw [← sameRing] at qMember qSeq within
          exact ⟨q, older q qMember, flags _ qFlag, by omega, by omega⟩

theorem protected_create (keep : Nat) (some_ : 1 ≤ keep) (body : CreateRelease) :
    KeptByCreate (Protected keep) body := by
  intro floor reads now hold inv kept next parent
  have ordered := inv.ordered
  obtain ⟨near, dense⟩ := dense_create some_ (fun _ _ => Protected.toDense) body hold inv kept next parent
  generalize batch : reads.batch body = b at next parent near dense
  have lengths := now.db.length_applyRelease b
  refine ⟨near, dense, ?_, ?_, ?_⟩
  · rintro r ⟨member, newest⟩ id inSelection
    rw [World.commit_selection_applyRelease ordered] at inSelection
    rw [World.commit_db, lengths] at newest
    simp only [World.commit_db, Db.applyRelease_releases, Db.applyRelease_packages,
      List.mem_append, List.mem_singleton] at member ⊢
    rcases member with old | rfl
    · rw [Function.update_of_ne (Nat.ne_of_lt (ordered.fresh r old))] at inSelection
      exact kept.present r ⟨old, by omega⟩ id inSelection
    · simp only [CreateBatch.row, Function.update_self] at inSelection
      refine target_present b ?_ id inSelection
      intro a isAdded
      have toNow := ((hold.toSeq.trans hold.toBase).trans hold.toLast).trans hold.toNow
      rw [← batch, show (reads.batch body).added = reads.added from rfl, hold.added] at isAdded
      rw [toNow.packages]
      exact mem_addedIds isAdded
  · rw [World.commit_db, Db.applyRelease_packages]
    exact kept.ids
  · exact kept.stored.fewer (by simp) (by simp)

/-! ## Garbage collection -/

/-- Going up a ring from a release above the floor: a package it lists is served by the ring,
or the delta of a later release removes it. -/
theorem served_or_removed {floor : Ring → Nat} {w : World} (inv : Exact floor w) {r : Release}
    (member : r ∈ w.db.releases) (above : floor r.ring ≤ r.seq) {id : PackageId}
    (listed : id ∈ w.selection r.id) :
    id ∈ w.db.ringPackages r.ring ∨
      ∃ q ∈ w.db.ofRing r.ring, r.seq < q.seq ∧ id ∈ (w.db.releaseDeltas q.id).remove := by
  obtain ⟨ahead, upTo⟩ : ∃ ahead, (w.db.ofRing r.ring).length = r.seq + ahead :=
    ⟨_, (Nat.add_sub_cancel' (inv.ordered.seq_le (Db.mem_ofRing.mpr ⟨member, rfl⟩)).2).symm⟩
  induction ahead generalizing r with
  | zero =>
      -- The ring's last release is its head.
      have inRing : r ∈ w.db.ofRing r.ring := Db.mem_ofRing.mpr ⟨member, rfl⟩
      cases last : (w.db.ofRing r.ring).getLast? with
      | none => exact absurd (List.getLast?_eq_none_iff.mp last) (List.ne_nil_of_mem inRing)
      | some q =>
          have seq := inv.ordered.getLast_seq last
          obtain rfl := inv.ordered.seq_injective (List.mem_of_getLast? last) inRing (by omega)
          have head : w.db.ringHeads q.ring = some q.id := by
            rw [inv.ordered.heads, last]
            rfl
          rw [inv.live q.ring q.id head]
          exact .inl listed
  | succ ahead ih =>
      obtain ⟨q, qIn, qSeq⟩ := inv.ordered.exists_seq (show 1 ≤ r.seq + 1 by omega)
        (show r.seq + 1 ≤ (w.db.ofRing r.ring).length by omega)
      obtain ⟨qMember, qRing⟩ := Db.mem_ofRing.mp qIn
      by_cases still : id ∈ w.selection q.id
      · rw [← qRing]
        rcases ih qMember (by rw [qRing]; omega) still (by rw [qRing]; omega) with
          served | ⟨q', qIn', later, removed⟩
        · exact .inl served
        · exact .inr ⟨q', qIn', by omega, removed⟩
      · refine .inr ⟨q, qIn, by omega, ?_⟩
        -- It was in the parent's selection and is not in this one.
        have isParent : q.parentId = some r.id := by
          rcases inv.chain q qMember with ⟨first, -⟩ | ⟨p, pMember, parent, pRing, pSeq⟩
          · have := (inv.ordered.seq_le (Db.mem_ofRing.mpr ⟨member, rfl⟩)).1
            omega
          · have pIn : p ∈ w.db.ofRing r.ring := Db.mem_ofRing.mpr ⟨pMember, pRing.trans qRing⟩
            rw [parent, inv.ordered.seq_injective pIn (Db.mem_ofRing.mpr ⟨member, rfl⟩) (by omega)]
        have applied := inv.deltas q qMember r.id isParent (by rw [qRing]; omega)
        rw [applied] at still
        by_contra kept
        exact still (by simp [Delta.apply, listed, kept])

/-- What one of the newest releases lists is inside retention. -/
theorem protected_named {keep : Nat} (some_ : 1 ≤ keep) {floor : Ring → Nat} {w : World}
    (inv : Exact floor w) (kept : Protected keep floor w) {retained : Retained}
    {low bound : Ring → Nat} (retains : Retains w.db (max 1 keep) retained rings.reverse low bound)
    {r : Release} (newest : w.db.Newest keep r) {id : PackageId} (listed : id ∈ w.selection r.id) :
    w.db.outsideRetention retained id = false := by
  obtain ⟨member, within⟩ := newest
  have every : ∀ ring, ring ∈ rings.reverse := fun ring => List.mem_reverse.mpr (mem_rings ring)
  have inRing : r ∈ w.db.ofRing r.ring := Db.mem_ofRing.mpr ⟨member, rfl⟩
  have near := kept.near r.ring
  have low' := retains.near r.ring (every _)
  have bounds := inv.ordered.seq_le inRing
  rw [Bool.eq_false_iff]
  intro outside
  simp only [Db.outsideRetention, Bool.and_eq_true, List.all_eq_true] at outside
  obtain ⟨⟨unserved, -⟩, unnamed⟩ := outside
  rcases served_or_removed inv member (by omega) listed with served | ⟨q, qIn, later, removed⟩
  · exact absurd served (by simpa using unserved r.ring (mem_rings _))
  · have protectedQ := (retains.mem_protected r.ring (every _) q qIn).mpr (by omega)
    have := unnamed q.id protectedQ
    simp [removed] at this

/-- The victims GC lists are rows outside retention. -/
theorem mem_victims {db : Db} {kept : Retained} {cutoff : Nat} {limit : Int} {v : Package}
    (member : v ∈ sliceTo limit (db.unreferenced kept cutoff)) :
    v ∈ db.packages ∧ db.outsideRetention kept v.id = true := by
  have listed : v ∈ db.unreferenced kept cutoff := by
    unfold sliceTo at member
    split at member <;> exact List.mem_of_mem_take member
  have := (List.perm_insertionSort _ _).mem_iff.mp listed
  simp only [List.mem_filter, Bool.and_eq_true] at this
  exact ⟨this.1, this.2.2⟩

/-- GC that keeps `keep` releases or more leaves a checkpoint near those it keeps. -/
theorem Dense.pruned {keep : Nat} {floor : Ring → Nat} {w after : World} (inv : Exact floor w)
    (kept : Dense keep floor w) {keeps : Nat} (atLeast : keep ≤ keeps) {retained : Retained}
    {low bound : Ring → Nat} (retains : Retains w.db keeps retained rings.reverse low bound)
    (releases : after.db.releases = (w.db.pruneFlags retained.keptCheckpoints).releases)
    (same : w.db.SameReleases after.db) : Dense keep (fun ring => max (floor ring) (bound ring)) after := by
  have every : ∀ ring, ring ∈ rings.reverse := fun ring => List.mem_reverse.mpr (mem_rings ring)
  -- A checkpoint at or above the bound of its ring stays one.
  have flagged : ∀ ring, ∀ r ∈ w.db.ofRing ring, r.checkpoint = true → bound ring ≤ r.seq →
      r ∈ after.db.ofRing ring ∧ Flagged after r.id := by
    intro ring r member flag above
    obtain ⟨inTable, sameRing⟩ := Db.mem_ofRing.mp member
    have isKept := (retains.mem_checkpoints ring (every _) r member).mpr ⟨flag, above⟩
    have inAfter : r ∈ after.db.releases := by
      rw [releases]
      simp only [Db.pruneFlags, List.mem_map]
      exact ⟨r, inTable, by rw [if_pos isKept]⟩
    exact ⟨Db.mem_ofRing.mpr ⟨inAfter, sameRing⟩, r, inAfter, rfl, flag⟩
  refine ⟨?_, ?_⟩
  · intro ring
    have := kept.near ring
    have := retains.near ring (every _)
    have := retains.floor_le ring (every _)
    rw [same.length_ofRing]
    omega
  · intro ring seq above one high
    rw [same.length_ofRing] at high
    obtain ⟨r, member, ⟨row, rowMember, sameId, flag⟩, below, within⟩ :=
      kept.dense ring seq (by omega) one high
    obtain rfl := inv.ordered.eq_of_id rowMember (Db.mem_ofRing.mp member).1 sameId
    by_cases keptRow : bound ring ≤ row.seq
    · obtain ⟨inAfter, flag'⟩ := flagged ring row member flag keptRow
      exact ⟨row, inAfter, flag', below, within⟩
    · -- The checkpoint was dropped: the one kept below what is protected is nearer.
      obtain ⟨base, baseMember, baseFlag, baseSeq⟩ := retains.floor_row ring (every _) (by omega)
      obtain ⟨inAfter, flag'⟩ := flagged ring base baseMember baseFlag (by omega)
      exact ⟨base, inAfter, flag', by omega, by omega⟩

theorem protected_gc {keep : Nat} (some_ : 1 ≤ keep) (params : GcParams) (sameKeep : params.keep = keep)
    {w : World} (sound : Sound (Protected keep) w) :
    Sound (Protected keep) ((handleGc params).run w).2 := by
  obtain ⟨floor, inv, kept⟩ := sound
  obtain ⟨retained, low, bound, pruned, retains, isPruned, ended⟩ := gc_run params inv.ordered
  rw [sameKeep] at retains
  rw [ended]
  generalize victims : sliceTo (min params.limit 500) (w.db.unreferenced retained params.cutoff) = list
  have outside : ∀ v ∈ list, v ∈ w.db.packages ∧ w.db.outsideRetention retained v.id = true := by
    intro v member
    rw [← victims] at member
    exact mem_victims member
  have swept := Program.alone_iff.mp (deleteVictims_swept list ⟨0, 0, 0, 0⟩ pruned)
  have samePackages : pruned.db.packages = w.db.packages := by rw [isPruned.rest]
  have stored : Stored pruned.db :=
    kept.stored.fewer (by rw [isPruned.rest]) fun p member => by rwa [samePackages] at member
  have storedAfter := Program.alone_iff.mp (deleteVictims_stored list
    (fun v member => kept.stored.indexed v (outside v member).1) ⟨0, 0, 0, 0⟩ stored)
  generalize ((deleteVictims list ⟨0, 0, 0, 0⟩).run pruned).2 = after at swept storedAfter
  have releases : after.db.releases = (w.db.pruneFlags retained.keptCheckpoints).releases := by
    rw [swept.rest]
    exact isPruned.releases
  have same : w.db.SameReleases after.db := by
    refine ⟨?_, by rw [swept.rest, isPruned.rest], by rw [swept.rest, isPruned.rest]⟩
    rw [releases]
    exact (Db.sameReleases_pruneFlags w.db retained.keptCheckpoints).rows
  obtain ⟨near, dense⟩ := kept.toDense.pruned inv (Nat.le_max_right 1 keep) retains releases same
  refine ⟨_, (inv.pruned retains isPruned).swept swept, near, dense, ?_, ?_, storedAfter⟩
  · rintro r ⟨member, newest⟩ id listed
    obtain ⟨r₀, member₀, eq⟩ := same.symm.exists_fixed member
    rw [same.length_ofRing, ← Release.ring_eq eq, ← Release.seq_eq eq] at newest
    rw [swept.selection, isPruned.selection, ← Release.id_eq eq] at listed
    obtain ⟨p, inTable, rfl⟩ := kept.present r₀ ⟨member₀, newest⟩ id listed
    have inside := protected_named some_ inv kept retains ⟨member₀, newest⟩ listed
    refine ⟨p, swept.stays p (by rwa [samePackages]) ?_, rfl⟩
    intro v isVictim sameId
    rw [← sameId, (outside v isVictim).2] at inside
    cases inside
  · have fewer := swept.fewer
    rw [samePackages] at fewer
    exact kept.ids.sublist (fewer.map _)

/-! ## The reconstruction succeeds -/

section Total

variable {more : (Ring → Nat) → World → Prop} {floor : Ring → Nat} {w : World}

variable (more) in
/-- With a checkpoint at most `room` behind it, the walk ends at one. -/
theorem walk_total (inv : Exact floor w) (releaseId : ReleaseId) (room : Nat) (chain : List Release)
    {cur : Release} (member : cur ∈ w.db.releases) {base : Release} (inRing : base ∈ w.db.ofRing cur.ring)
    (flag : base.checkpoint = true) (below : base.seq ≤ cur.seq) (within : cur.seq ≤ base.seq + room) :
    (walk releaseId room chain cur).Spec (onItsOwn (Sound more)) w fun result w' =>
      w = w' ∧ ∃ found, result = .ok found := by
  have ended : base.seq = cur.seq → cur.checkpoint = true := by
    intro same
    rw [← inv.ordered.seq_injective inRing (Db.mem_ofRing.mpr ⟨member, rfl⟩) same]
    exact flag
  induction room generalizing chain cur with
  | zero =>
      unfold walk
      rw [if_pos (ended (by omega))]
      exact ⟨rfl, chain, rfl⟩
  | succ room ih =>
      unfold walk
      split
      · exact ⟨rfl, chain, rfl⟩
      rename_i plain
      have further : base.seq < cur.seq := by
        rcases Nat.lt_or_eq_of_le below with lt | same
        · exact lt
        · exact absurd (ended same) plain
      rcases inv.chain cur member with ⟨first, -⟩ | ⟨q, qMember, parent, qRing, qSeq⟩
      · have := (inv.ordered.seq_le inRing).1
        omega
      simp only [parent]
      refine Program.Spec.bind (Program.spec_query (fun _ => trivial) ?_)
      rintro _ rfl _ -
      have read := inv.ordered.release?_of_mem qMember
      simp only [read]
      refine ih _ qMember (by rwa [qRing]) (by omega) (by omega) ?_
      intro same
      rw [← inv.ordered.seq_injective inRing (Db.mem_ofRing.mpr ⟨qMember, qRing⟩) same]
      exact flag

theorem replay_total (base : ReleaseId) (links : List Release) :
    (replay base links).Spec (onItsOwn (Sound more)) w fun result w' =>
      w = w' ∧ ∃ ids, result = .ok ids := by
  induction links with
  | nil =>
      refine Program.spec_query (fun _ => trivial) ?_
      rintro _ rfl _ -
      exact ⟨rfl, _, rfl⟩
  | cons r older ih =>
      refine Program.Spec.bind (ih.mono ?_)
      rintro _ _ ⟨rfl, ids, rfl⟩
      refine Program.Spec.bind (Program.spec_query (fun _ => trivial) ?_)
      rintro _ rfl _ -
      exact ⟨rfl, _, rfl⟩

theorem countPackages_ge {db : Db} {ids : List PackageId} (distinct : ids.Nodup)
    (present : ∀ id ∈ ids, ∃ p ∈ db.packages, p.id = id) : ids.length ≤ db.countPackages ids := by
  have listed : ids ⊆ (db.packages.filter (·.id ∈ ids)).map (·.id) := by
    intro id member
    obtain ⟨p, inTable, rfl⟩ := present id member
    exact List.mem_map_of_mem (List.mem_filter.mpr ⟨inTable, by simpa using member⟩)
  simpa [Db.countPackages] using (List.subperm_of_subset distinct listed).length_le

theorem checkPresent_total (releaseId : ReleaseId) (list : List (List PackageId))
    (distinct : ∀ chunk ∈ list, chunk.Nodup)
    (present : ∀ chunk ∈ list, ∀ id ∈ chunk, ∃ p ∈ w.db.packages, p.id = id) :
    (checkPresent releaseId list).Spec (onItsOwn (Sound more)) w fun result w' =>
      w = w' ∧ result = .ok () := by
  induction list with
  | nil => exact ⟨rfl, rfl⟩
  | cons chunk rest ih =>
      unfold checkPresent
      refine Program.Spec.bind (Program.spec_query (fun _ => trivial) ?_)
      rintro _ rfl _ -
      have enough := countPackages_ge (distinct chunk List.mem_cons_self)
        (present chunk List.mem_cons_self)
      dsimp only
      rw [if_neg (by omega)]
      exact ih (fun c member => distinct c (List.mem_cons_of_mem _ member))
        (fun c member => present c (List.mem_cons_of_mem _ member))

theorem writeCheckpoint_total (stable : ∀ floor w w', Recounted w w' → more floor w → more floor w')
    (inv : Exact floor w) (rest : more floor w) {r : Release} (member : r ∈ w.db.releases)
    (above : floor r.ring ≤ r.seq) (base : Option ReleaseId)
    (present : w.db.Present (w.selection r.id)) :
    (writeCheckpoint r.id base (w.selection r.id)).Spec (onItsOwn (Sound more)) w fun result _ =>
      result = .ok () := by
  have inChunk : ∀ chunk ∈ chunks chunkSize ((w.selection r.id).sort (· ≤ ·)),
      chunk.Sublist ((w.selection r.id).sort (· ≤ ·)) := by
    intro chunk isChunk
    obtain ⟨i, -, rfl⟩ := List.mem_map.mp isChunk
    exact (List.take_sublist _ _).trans (List.drop_sublist _ _)
  refine Program.Spec.bind ((checkPresent_total r.id _ ?_ ?_).mono ?_)
  · exact fun chunk isChunk => (Finset.sort_nodup _ _).sublist (inChunk chunk isChunk)
  · intro chunk isChunk id inIt
    exact present id (by simpa using (inChunk chunk isChunk).subset inIt)
  · rintro _ _ ⟨rfl, rfl⟩
    refine Program.spec_exec ?_
    rintro _ rfl _ -
    exact ⟨⟨floor, inv.materialise member above, stable floor _ _ (Settled.materialise _ _ _).toRecounted rest⟩,
      trivial, rfl⟩

end Total

/-- A release with a checkpoint near behind it, and its packages there, can be reconstructed. -/
theorem ensureCheckpoint_of_near {more : (Ring → Nat) → World → Prop}
    (stable : ∀ floor w w', Recounted w w' → more floor w → more floor w') {floor : Ring → Nat}
    {w : World} (inv : Exact floor w) (rest : more floor w) {r : Release} (member : r ∈ w.db.releases)
    {base : Release} (baseIn : base ∈ w.db.ofRing r.ring) (flagged : Flagged w base.id)
    (below : base.seq ≤ r.seq) (dense : r.seq < base.seq + checkpointEvery)
    (present : w.db.Present (w.selection r.id)) : ((ensureCheckpoint r.id).run w).1 = .ok () := by
  have sound : Sound more w := ⟨floor, inv, rest⟩
  obtain ⟨row, rowMember, sameId, flag⟩ := flagged
  obtain rfl := inv.ordered.eq_of_id rowMember (Db.mem_ofRing.mp baseIn).1 sameId
  have above : floor r.ring ≤ r.seq := by
    have := inv.above row rowMember flag
    rw [(Db.mem_ofRing.mp baseIn).2] at this
    omega
  have spec : (ensureCheckpoint r.id).Spec (onItsOwn (Sound more)) w fun result _ => result = .ok () := by
    unfold ensureCheckpoint
    refine Program.Spec.bind (Program.spec_query (fun _ => trivial) ?_)
    rintro _ rfl _ -
    simp only [inv.ordered.release?_of_mem member]
    split
    · rfl
    rename_i plain
    refine Program.Spec.bind (Program.spec_query (fun _ => trivial) ?_)
    rintro _ rfl _ -
    dsimp only
    cases head : w.db.headRing? r.id with
    | some ring =>
        have isHead : w.db.ringHeads ring = some r.id := by simpa using List.find?_some head
        refine Program.Spec.bind (Program.spec_query (fun _ => trivial) ?_)
        rintro _ rfl _ -
        dsimp only
        rw [inv.live ring r.id isHead]
        exact writeCheckpoint_total stable inv rest member above none present
    | none =>
        have single : Chain w [r] := ⟨List.isChain_singleton r, fun q inList => by
          rw [List.mem_singleton.mp inList]
          exact Known.of_mem member⟩
        have walked := walk_spec (sound_rebuilds (.of_recounted stable)) Settled.refl (fun _ _ _ => Settled.trans)
          (fun a b same => by cases same; exact Settled.refl a) r.id (checkpointEvery * 4 - 1) [r] r
          sound single rfl (fun flagged => absurd flagged plain)
        have ends := walk_total more inv r.id (checkpointEvery * 4 - 1) [r]
          member baseIn flag below (by simp only [checkpointEvery] at dense ⊢; omega)
        refine Program.Spec.bind ((walked.and ends).mono ?_)
        rintro _ _ ⟨⟨_, _, facts⟩, rfl, chain, rfl⟩
        obtain ⟨chained, grown, top, isLast, -, flagged⟩ := facts chain rfl
        obtain ⟨links, rfl⟩ : ∃ links, chain = links ++ [top] := List.getLast?_eq_some_iff.mp isLast
        have first : (links ++ [top]).head? = some r := by
          obtain ⟨tail, eq⟩ := grown
          rw [← eq]
          rfl
        simp only [List.getLast?_concat, Option.getD_some, List.dropLast_concat]
        have replayed := replay_spec (sound_rebuilds (.of_recounted stable)) (fun a b d => @Settled.trans a b d)
          (fun a b same => by cases same; exact Settled.refl a) top links r chained first flagged
        refine Program.Spec.bind ((replayed.and (replay_total top.id links)).mono ?_)
        rintro _ _ ⟨⟨_, _, _, _, isSelection⟩, rfl, ids, rfl⟩
        rw [isSelection ids rfl]
        exact writeCheckpoint_total stable inv rest member above (some top.id) present
  exact (Program.run_spec (c := onItsOwn (Sound more)) (fun _ => rfl) (fun _ _ => trivial)
    sound spec).2

/-- Each of the newest `keep` releases of a ring can be reconstructed. -/
theorem ensureCheckpoint_total {keep : Nat} {w : World}
    (sound : Sound (Protected keep) w) {r : Release} (newest : w.db.Newest keep r) :
    ((ensureCheckpoint r.id).run w).1 = .ok () := by
  have ⟨floor, inv, kept⟩ := sound
  obtain ⟨member, within⟩ := newest
  have bounds := inv.ordered.seq_le (Db.mem_ofRing.mpr ⟨member, rfl⟩)
  have near := kept.near r.ring
  obtain ⟨base, baseIn, flagged, below, dense⟩ :=
    kept.dense r.ring r.seq (by omega) bounds.1 bounds.2
  exact ensureCheckpoint_of_near (Protected.stable keep) inv kept member baseIn flagged below dense
    (kept.present r ⟨member, within⟩)

/-- A GC keeps this many releases of each ring. -/
def Op.Keeps (keep : Nat) : Op → Prop
  | .gc params => params.keep = keep
  | _ => True

instance (keep : Nat) (op : Op) : Decidable (op.Keeps keep) := by
  cases op <;> (unfold Op.Keeps; infer_instance)

/-- Operations one at a time, every GC keeping `keep` releases, over an index whose rows
have their objects: each of a ring's newest `keep` releases can be reconstructed and has all
its packages, and every row that is not a ghost has its object. -/
theorem newest_servable {packages : List Package} {bucket : String → Option Blob}
    (ids : (packages.map (·.id)).Nodup) (indexed : ∀ p ∈ packages, p.indexed = true)
    (objects : ∀ p ∈ packages, p.ghost = false → (bucket p.key).isSome = true)
    {keep : Nat} (some_ : 1 ≤ keep) {w : World}
    (reached : Sequence Op.serve (fun op _ => op.Keeps keep)
      (World.fresh packages bucket) w) :
    (∀ ring, ∀ r ∈ (w.db.newestFirst ring).take keep,
      ((ensureCheckpoint r.id).run w).1 = .ok () ∧
        ∀ id ∈ w.selection r.id, ∃ p ∈ w.db.packages, p.id = id) ∧
    ∀ p ∈ w.db.packages, p.ghost = false → (w.db.bucket p.key).isSome = true := by
  have sound : Sound (Protected keep) w := by
    refine reached.induct (Sound (Protected keep))
      ⟨_, Exact.fresh packages bucket, Protected.fresh ids indexed objects keep⟩ ?_
    intro op w sameKeep sound
    refine sound_op (.of_recounted (Protected.stable keep)) (protected_create keep some_) op ?_ sound
    intro params isGc
    subst isGc
    exact protected_gc some_ params sameKeep sound
  have ⟨floor, inv, kept⟩ := sound
  refine ⟨?_, kept.stored.objects⟩
  intro ring r member
  obtain ⟨inRing, within⟩ := inv.ordered.mem_take_newestFirst.mp member
  obtain ⟨inTable, rfl⟩ := Db.mem_ofRing.mp inRing
  exact ⟨ensureCheckpoint_total sound ⟨inTable, within⟩, kept.present r ⟨inTable, within⟩⟩

/-- A package is added and removed again, and GC that keeps one release takes it. -/
def collectingRun : List Op :=
  [.create { ring := "edge", add := [Package.sampleHash 'a', Package.sampleHash 'b'] },
    .create { ring := "edge", remove := ["bash"] },
    .create { ring := "edge", add := [Package.sampleHash 'c'] },
    .ensure 2, .gc { keep := 1, cutoff := 9 }]

theorem newest_servable_collectingRun :
    ∃ w, Sequence Op.serve (fun op _ => op.Keeps 1)
        (World.fresh [.sample 1 'a' "core" "bash", .sample 2 'b' "core" "curl",
          .sample 3 'c' "core" "nano"] fun _ => some ⟨1, ∅, none⟩) w ∧
      (w.db.packages.map (·.id) = [2, 3] ∧
        w.db.bucket "core/x86_64/bash-1.0-1-x86_64.pkg.tar.zst" = none) ∧
      (∀ ring, ∀ r ∈ (w.db.newestFirst ring).take 1,
        ((ensureCheckpoint r.id).run w).1 = .ok () ∧
          ∀ id ∈ w.selection r.id, ∃ p ∈ w.db.packages, p.id = id) ∧
      ∀ p ∈ w.db.packages, p.ghost = false → (w.db.bucket p.key).isSome = true :=
  have reached := Runs.start.steps collectingRun (by decide)
  ⟨_, reached, by decide +kernel,
    newest_servable (by decide) (by decide) (fun _ _ _ => rfl) (by decide) reached⟩

end OmarchyPool
