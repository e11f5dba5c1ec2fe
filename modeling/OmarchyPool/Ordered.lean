/-
# OmarchyPool.Ordered -- the releases of a ring are numbered 1, 2, 3, …

`Db.Ordered` is what the `releases` table and `ring_heads` keep under every write: ids are
fresh, the rows of a ring stand in the order of their `seq` with none skipped, and the head
is the last one.  So `MAX(seq)` is how many there are (`maxSeq_eq`), and a batch that
`UNIQUE (ring, seq)` lets through with a `seq` some earlier read gave is the next one
(`seq_of_createRelease`).

A write that changes only the columns a release may change later -- its checkpoint flag and
its stored counts -- leaves all of this alone (`Db.SameReleases`).
-/
import OmarchyPool.Gc

namespace OmarchyPool

set_option autoImplicit false

/-- The columns of a release no statement ever changes. -/
def Release.fixed (r : Release) : ReleaseId × Ring × Nat × Option ReleaseId × Option ReleaseId :=
  (r.id, r.ring, r.seq, r.parentId, r.sourceId)

namespace Release

variable {r r' : Release} (same : r.fixed = r'.fixed)
include same

theorem id_eq : r.id = r'.id := congrArg (·.1) same

theorem ring_eq : r.ring = r'.ring := congrArg (·.2.1) same

theorem seq_eq : r.seq = r'.seq := congrArg (·.2.2.1) same

theorem parentId_eq : r.parentId = r'.parentId := congrArg (·.2.2.2.1) same

end Release

namespace Db

structure Ordered (db : Db) : Prop where
  ids : (db.releases.map (·.id)).Nodup
  fresh : ∀ r ∈ db.releases, r.id < db.nextRelease
  seqs : ∀ ring, (db.ofRing ring).map (·.seq) = List.range' 1 (db.ofRing ring).length
  heads : ∀ ring, db.ringHeads ring = (db.ofRing ring).getLast?.map (·.id)

/-! ## Reading an ordered table -/

section Reads

variable {db : Db} (ordered : db.Ordered)
include ordered

theorem Ordered.release?_eq_some {id : ReleaseId} {r : Release} :
    db.release? id = some r ↔ r ∈ db.releases ∧ r.id = id := by
  constructor
  · intro found
    exact ⟨List.mem_of_find?_eq_some found, by simpa using List.find?_some found⟩
  · rintro ⟨member, rfl⟩
    have unique := List.inj_on_of_nodup_map ordered.ids
    cases found : db.release? r.id with
    | none => exact absurd (List.find?_eq_none.mp found r member) (by simp)
    | some r' =>
        have sameId : r'.id = r.id := by simpa using List.find?_some found
        rw [unique (List.mem_of_find?_eq_some found) member sameId]

theorem Ordered.release?_of_mem {r : Release} (member : r ∈ db.releases) :
    db.release? r.id = some r := ordered.release?_eq_some.mpr ⟨member, rfl⟩

theorem Ordered.eq_of_id {r r' : Release} (member : r ∈ db.releases) (member' : r' ∈ db.releases)
    (same : r.id = r'.id) : r = r' := List.inj_on_of_nodup_map ordered.ids member member' same

theorem Ordered.seq_le {ring : Ring} {r : Release} (member : r ∈ db.ofRing ring) :
    1 ≤ r.seq ∧ r.seq ≤ (db.ofRing ring).length := by
  have inRange : r.seq ∈ List.range' 1 (db.ofRing ring).length := by
    rw [← ordered.seqs ring]
    exact List.mem_map_of_mem member
  rw [List.mem_range'_1] at inRange
  omega

theorem Ordered.maxSeq_eq (ring : Ring) : db.maxSeq ring = (db.ofRing ring).length := by
  rw [maxSeq, ordered.seqs ring]
  generalize (db.ofRing ring).length = n
  -- The largest of `1, …, n` is `n`.
  have top : ∀ n start, (List.range' start n).foldr max 0 = if n = 0 then 0 else start + n - 1 := by
    intro n
    induction n with
    | zero => intro start; rfl
    | succ n ih =>
        intro start
        rw [List.range'_succ, List.foldr_cons, ih (start + 1)]
        split
        · simp_all
        · simp only [Nat.add_eq_zero_iff, Nat.succ_ne_self, and_false, if_false]
          omega
  rw [top]
  split <;> omega

theorem Ordered.seq_injective {ring : Ring} {r r' : Release} (member : r ∈ db.ofRing ring)
    (member' : r' ∈ db.ofRing ring) (same : r.seq = r'.seq) : r = r' := by
  have nodup : ((db.ofRing ring).map (·.seq)).Nodup := by
    rw [ordered.seqs ring]
    exact List.nodup_range'
  exact List.inj_on_of_nodup_map nodup member member' same

theorem Ordered.exists_seq {ring : Ring} {seq : Nat} (low : 1 ≤ seq)
    (high : seq ≤ (db.ofRing ring).length) : ∃ r ∈ db.ofRing ring, r.seq = seq := by
  have inRange : seq ∈ List.range' 1 (db.ofRing ring).length := by
    rw [List.mem_range'_1]
    omega
  rw [← ordered.seqs ring] at inRange
  simpa using inRange

theorem Ordered.getLast_seq {ring : Ring} {r : Release}
    (last : (db.ofRing ring).getLast? = some r) : r.seq = (db.ofRing ring).length := by
  have mapped : ((db.ofRing ring).map (·.seq)).getLast? = some r.seq := by
    rw [List.getLast?_map, last]
    rfl
  rw [ordered.seqs ring, List.getLast?_range'] at mapped
  have positive : (db.ofRing ring).length ≠ 0 := by
    intro empty
    simp [empty] at mapped
  simp only [positive, if_false, Option.some.injEq] at mapped
  omega

/-- The head a ring names is its release of the highest `seq`. -/
theorem Ordered.ringHead_eq (ring : Ring) : db.ringHead ring = (db.ofRing ring).getLast? := by
  rw [ringHead, ordered.heads ring]
  cases last : (db.ofRing ring).getLast? with
  | none => rfl
  | some r =>
      have member := List.mem_of_getLast? last
      exact ordered.release?_of_mem (List.mem_filter.mp member).1

theorem Ordered.head_row {ring : Ring} {id : ReleaseId} (head : db.ringHeads ring = some id) :
    ∃ r ∈ db.ofRing ring, r.id = id ∧ r.seq = (db.ofRing ring).length := by
  rw [ordered.heads ring] at head
  obtain ⟨r, last, same⟩ := Option.map_eq_some_iff.mp head
  exact ⟨r, List.mem_of_getLast? last, same, ordered.getLast_seq last⟩

theorem Ordered.head_lt {ring : Ring} {id : ReleaseId} (head : db.ringHeads ring = some id) :
    id < db.nextRelease := by
  obtain ⟨r, member, same, -⟩ := ordered.head_row head
  exact same ▸ ordered.fresh r (List.mem_filter.mp member).1

theorem Ordered.release?_nextRelease : db.release? db.nextRelease = none := by
  refine List.find?_eq_none.mpr fun r member => ?_
  simpa using Nat.ne_of_lt (ordered.fresh r member)

/-- A batch let through with a `seq` no higher than the next one is the next one. -/
theorem Ordered.seq_of_createRelease {b : CreateBatch} {db' : Db} (low : 1 ≤ b.seq)
    (high : b.seq ≤ (db.ofRing b.ring).length + 1) (done : createRelease b db = .ok db') :
    b.seq = (db.ofRing b.ring).length + 1 ∧ db' = db.applyRelease b := by
  unfold createRelease at done
  split at done
  · cases done
  · rename_i free
    refine ⟨?_, by cases done; rfl⟩
    by_contra lower
    obtain ⟨r, member, same⟩ := ordered.exists_seq low (show b.seq ≤ (db.ofRing b.ring).length by omega)
    exact free (List.any_eq_true.mpr ⟨r, member, by simp [same]⟩)

end Reads

theorem mem_ofRing {db : Db} {ring : Ring} {r : Release} :
    r ∈ db.ofRing ring ↔ r ∈ db.releases ∧ r.ring = ring := by
  simp [ofRing]

/-! ## Writes that leave the releases as they are -/

/-- The releases, up to their flag and counts, the heads and the ids are the same. -/
structure SameReleases (db db' : Db) : Prop where
  rows : db'.releases.map Release.fixed = db.releases.map Release.fixed
  next : db'.nextRelease = db.nextRelease
  heads : db'.ringHeads = db.ringHeads

namespace SameReleases

theorem refl (db : Db) : SameReleases db db := ⟨rfl, rfl, rfl⟩

theorem trans {a b c : Db} (first : SameReleases a b) (second : SameReleases b c) :
    SameReleases a c :=
  ⟨second.rows.trans first.rows, second.next.trans first.next, second.heads.trans first.heads⟩

theorem symm {a b : Db} (same : SameReleases a b) : SameReleases b a :=
  ⟨same.rows.symm, same.next.symm, same.heads.symm⟩

variable {db db' : Db} (same : SameReleases db db')
include same

theorem ofRing (ring : Ring) :
    (db'.ofRing ring).map Release.fixed = (db.ofRing ring).map Release.fixed := by
  have filtered : ∀ rows : List Release, (rows.filter (·.ring == ring)).map Release.fixed =
      (rows.map Release.fixed).filter (fun t => t.2.1 == ring) := by
    intro rows
    rw [List.filter_map]
    rfl
  rw [Db.ofRing, Db.ofRing, filtered, filtered, same.rows]

theorem ofRing_seq (ring : Ring) : (db'.ofRing ring).map (·.seq) = (db.ofRing ring).map (·.seq) := by
  have := congrArg (List.map (·.2.2.1)) (same.ofRing ring)
  simpa [List.map_map, Function.comp_def, Release.fixed] using this

theorem ofRing_id (ring : Ring) : (db'.ofRing ring).map (·.id) = (db.ofRing ring).map (·.id) := by
  have := congrArg (List.map (·.1)) (same.ofRing ring)
  simpa [List.map_map, Function.comp_def, Release.fixed] using this

theorem length_ofRing (ring : Ring) : (db'.ofRing ring).length = (db.ofRing ring).length := by
  simpa using congrArg List.length (same.ofRing ring)

theorem exists_fixed {r : Release} (member : r ∈ db.releases) :
    ∃ r' ∈ db'.releases, r'.fixed = r.fixed := by
  have : r.fixed ∈ db'.releases.map Release.fixed := by
    rw [same.rows]
    exact List.mem_map_of_mem member
  simpa using this

theorem ordered (before : db.Ordered) : db'.Ordered where
  ids := by
    have : db'.releases.map (·.id) = db.releases.map (·.id) := by
      simpa [List.map_map, Function.comp_def, Release.fixed] using congrArg (List.map (·.1)) same.rows
    rw [this]
    exact before.ids
  fresh := by
    intro r member
    obtain ⟨r₀, member₀, eq⟩ := same.symm.exists_fixed member
    have := before.fresh r₀ member₀
    rw [same.next, Release.id_eq eq.symm]
    exact this
  seqs := by
    intro ring
    rw [same.ofRing_seq, same.length_ofRing]
    exact before.seqs ring
  heads := by
    intro ring
    rw [same.heads, before.heads ring, ← List.getLast?_map, ← List.getLast?_map, same.ofRing_id]

theorem release?_isNone (id : ReleaseId) : (db'.release? id).isNone = (db.release? id).isNone := by
  have byIds : ∀ d : Db, (d.release? id).isNone = !(d.releases.map (·.id)).contains id := by
    intro d
    rw [Bool.eq_iff_iff]
    simp [release?]
  have : db'.releases.map (·.id) = db.releases.map (·.id) := by
    simpa [List.map_map, Function.comp_def, Release.fixed] using congrArg (List.map (·.1)) same.rows
  rw [byIds, byIds, this]

end SameReleases

theorem sameReleases_updateRelease (db : Db) (id : ReleaseId) (change : Release → Release)
    (keeps : ∀ r, (change r).fixed = r.fixed) : SameReleases db (db.updateRelease id change) := by
  refine ⟨?_, rfl, rfl⟩
  simp only [updateRelease, List.map_map]
  apply List.map_congr_left
  intro r _
  simp only [Function.comp_apply]
  split
  · exact keeps r
  · rfl

theorem sameReleases_materialise (db : Db) (id : ReleaseId) (ids : Finset PackageId) :
    SameReleases db (db.materialise id ids) :=
  have same := sameReleases_updateRelease db id ({ · with checkpoint := true }) fun _ => rfl
  ⟨same.rows, same.next, same.heads⟩

theorem sameReleases_pruneFlags (db : Db) (kept : List ReleaseId) :
    SameReleases db (db.pruneFlags kept) := by
  refine ⟨?_, rfl, rfl⟩
  simp only [pruneFlags, List.map_map]
  apply List.map_congr_left
  intro r _
  simp only [Function.comp_apply]
  split <;> rfl

/-! ## The batch that adds a release -/

theorem foldl_insertArtifact (rows : List Artifact) (db : Db) :
    ∃ artifacts, rows.foldl insertArtifact db = { db with artifacts := artifacts } := by
  induction rows generalizing db with
  | nil => exact ⟨db.artifacts, rfl⟩
  | cons a rows ih =>
      obtain ⟨artifacts, eq⟩ := ih (db.insertArtifact a)
      refine ⟨artifacts, ?_⟩
      rw [List.foldl_cons, eq, insertArtifact]
      split <;> rfl

section Create

variable (db : Db) (b : CreateBatch)

@[simp] theorem applyRelease_releases :
    (db.applyRelease b).releases = db.releases ++ [b.row db.nextRelease] := by
  unfold applyRelease
  obtain ⟨artifacts, eq⟩ := foldl_insertArtifact _ _
  rw [eq]

@[simp] theorem applyRelease_nextRelease :
    (db.applyRelease b).nextRelease = db.nextRelease + 1 := by
  unfold applyRelease
  obtain ⟨artifacts, eq⟩ := foldl_insertArtifact _ _
  rw [eq]

@[simp] theorem applyRelease_ringHeads :
    (db.applyRelease b).ringHeads = Function.update db.ringHeads b.ring (some db.nextRelease) := by
  unfold applyRelease
  obtain ⟨artifacts, eq⟩ := foldl_insertArtifact _ _
  rw [eq]

@[simp] theorem applyRelease_packages : (db.applyRelease b).packages = db.packages := by
  unfold applyRelease
  obtain ⟨artifacts, eq⟩ := foldl_insertArtifact _ _
  rw [eq]

@[simp] theorem applyRelease_bucket : (db.applyRelease b).bucket = db.bucket := by
  unfold applyRelease
  obtain ⟨artifacts, eq⟩ := foldl_insertArtifact _ _
  rw [eq]

/-- The ring's live rows move to the target. -/
@[simp] theorem applyRelease_ringPackages :
    (db.applyRelease b).ringPackages = Function.update db.ringPackages b.ring (b.target db) := by
  unfold applyRelease
  obtain ⟨artifacts, eq⟩ := foldl_insertArtifact _ _
  rw [eq]
  simp

@[simp] theorem applyRelease_releaseDeltas :
    (db.applyRelease b).releaseDeltas = Function.update db.releaseDeltas db.nextRelease
      (Delta.between (db.ringPackages b.ring) (b.target db)) := by
  unfold applyRelease
  obtain ⟨artifacts, eq⟩ := foldl_insertArtifact _ _
  rw [eq]

@[simp] theorem applyRelease_releasePackages :
    (db.applyRelease b).releasePackages =
      if b.checkpoint then
        Function.update db.releasePackages db.nextRelease
          (db.releasePackages db.nextRelease ∪ b.target db)
      else db.releasePackages := by
  unfold applyRelease
  obtain ⟨artifacts, eq⟩ := foldl_insertArtifact _ _
  rw [eq]
  simp

theorem applyRelease_ofRing (ring : Ring) :
    (db.applyRelease b).ofRing ring =
      if b.ring = ring then db.ofRing ring ++ [b.row db.nextRelease] else db.ofRing ring := by
  simp only [ofRing, applyRelease_releases, List.filter_append]
  by_cases same : b.ring = ring <;> simp [same, CreateBatch.row]

variable {db b}

theorem Ordered.applyRelease (ordered : db.Ordered)
    (next : b.seq = (db.ofRing b.ring).length + 1) : (db.applyRelease b).Ordered where
  ids := by
    simp only [applyRelease_releases, List.map_append, List.map_cons, List.map_nil]
    refine List.nodup_append.mpr ⟨ordered.ids, List.nodup_singleton _, ?_⟩
    intro id old new isNew
    obtain ⟨r, member, rfl⟩ := List.mem_map.mp old
    rw [List.mem_singleton.mp isNew]
    exact Nat.ne_of_lt (ordered.fresh r member)
  fresh := by
    intro r member
    simp only [applyRelease_releases, List.mem_append, List.mem_singleton] at member
    rw [applyRelease_nextRelease]
    rcases member with old | rfl
    · exact Nat.lt_succ_of_lt (ordered.fresh r old)
    · exact Nat.lt_succ_self _
  seqs := by
    intro ring
    rw [applyRelease_ofRing]
    split
    · rename_i same
      subst same
      simp only [List.map_append, ordered.seqs b.ring, List.map_cons, List.map_nil,
        List.length_append, List.length_cons, List.length_nil, CreateBatch.row, next]
      rw [List.range'_concat]
      simp [Nat.add_comm]
    · exact ordered.seqs ring
  heads := by
    intro ring
    rw [applyRelease_ofRing, applyRelease_ringHeads]
    by_cases same : b.ring = ring
    · subst same
      simp [CreateBatch.row]
    · rw [Function.update_of_ne (Ne.symm same), if_neg same]
      exact ordered.heads ring

theorem Ordered.applyRelease_release? (ordered : db.Ordered) (id : ReleaseId) :
    (db.applyRelease b).release? id =
      if id = db.nextRelease then some (b.row db.nextRelease) else db.release? id := by
  unfold release?
  rw [applyRelease_releases, List.find?_append]
  by_cases same : id = db.nextRelease
  · subst same
    have := ordered.release?_nextRelease
    unfold release? at this
    simp [this, CreateBatch.row]
  · have ne : ¬ db.nextRelease = id := fun h => same h.symm
    simp [same, CreateBatch.row, ne]

end Create

end Db

end OmarchyPool
