/-
# OmarchyPool.OwnBase -- a release made from its ring's own rows

A sync and a fast-track send `POST /releases` with adds and removes and no base: the selection starts from what
the ring serves.  Run alone, such a request answers once every entry of `add` names an indexed row, and moves
the ring to the target of the one batch it is bound with (`create_own`).
-/
import Mathlib.Data.List.TakeWhile
import OmarchyPool.Exact

namespace OmarchyPool

open Lib

set_option autoImplicit false

/-- The request names a ring, an architecture to remove within or none, and no base. -/
structure OwnRequest (body : CreateRelease) (ring : Ring) (removeArch : Option Arch) : Prop where
  ring : isRing body.ring = some ring
  noRelease : body.fromReleaseId = none
  noRing : body.fromRing = none
  noArch : body.arch = none
  removeArch : body.removeArch = removeArch.map Arch.name

/-- The rows of `packages` a ring serves. -/
def Db.ringRows (db : Db) (ring : Ring) : List Package := db.joined (db.ringPackages ring)

theorem mem_ringRows {db : Db} {ring : Ring} {p : Package} :
    p ∈ db.ringRows ring ↔ p ∈ db.packages ∧ p.id ∈ db.ringPackages ring := by
  simp [Db.ringRows, Db.joined]

/-- What holds of every index: ids are a key of `packages` and so is `(sha256, repoArch)`, a hash is hexadecimal,
and a ring's rows are of packages and of a ring with a head. -/
structure Db.WellIndexed (db : Db) : Prop where
  ordered : db.Ordered
  distinct : (db.packages.map (·.id)).Nodup
  oneRow : ∀ p ∈ db.packages, ∀ q ∈ db.packages, p.sha256 = q.sha256 → p.repoArch = q.repoArch → p = q
  plain : ∀ p ∈ db.packages, '/' ∉ p.sha256.toList
  idle : ∀ ring, db.ringHeads ring = none → db.ringPackages ring = ∅
  listed : ∀ ring, ∀ id ∈ db.ringPackages ring, ∃ p ∈ db.packages, p.id = id

/-- Every entry of `add` names a row of the index. -/
def Db.AllIndexed (db : Db) (add : List String) (removeArch : Option Arch) : Prop :=
  ∀ entry ∈ add,
    (Wanted.ofEntry entry).rowsOf (db.addRows ((add.map Wanted.ofEntry).map (·.sha)) removeArch) ≠ []

/-- The batch such a request is bound with. -/
def CreateRelease.ownBatch (body : CreateRelease) (ring : Ring) (removeArch : Option Arch) (db : Db) : CreateBatch :=
  { ring, removeArch
    seq := db.maxSeq ring + 1
    parent := (db.ringHead ring).map (·.id)
    source := none
    note := body.note
    base := if (db.ringHead ring).isSome then .ring ring else .none
    remove := body.remove
    removeFrom := body.removeFrom
    added := db.addedIds body.add removeArch
    checkpoint := (db.ringHead ring).isNone || db.maxSeq ring + 1 - db.lastCheckpoint ring ≥ checkpointEvery
    unchanged := unchangedArches body none (db.ringHead ring) removeArch none (db.addedIds body.add removeArch) }

section Own

variable {w : World} {body : CreateRelease} {ring : Ring} {removeArch : Option Arch}

theorem run_query {α : Type} (event : Event) (read : Db → α) (w : World) :
    (D1.query event read).run w = (.ok (read w.db), w) := rfl

theorem resolveAdds_own (indexed : w.db.AllIndexed body.add removeArch) :
    (resolveAdds body.add removeArch).run w = (.ok (w.db.addedIds body.add removeArch), w) := by
  have none_ : (((body.add.map Wanted.ofEntry).filter fun wanted =>
      (wanted.rowsOf (w.db.addRows ((body.add.map Wanted.ofEntry).map (·.sha)) removeArch)).isEmpty).map
        (·.entry)).isEmpty = true := by
    rw [List.isEmpty_iff, List.map_eq_nil_iff, List.filter_eq_nil_iff]
    intro wanted member isEmpty
    obtain ⟨entry, isEntry, rfl⟩ := List.mem_map.mp member
    exact indexed entry isEntry (List.isEmpty_iff.mp isEmpty)
  unfold resolveAdds
  by_cases empty : body.add.isEmpty
  · have nil : body.add = [] := List.isEmpty_iff.mp empty
    rw [nil]
    rfl
  · simp only [empty, Bool.false_eq_true, if_false, Program.bind_eq, Program.run_bind, run_query, none_, if_true]
    rfl

theorem members_head {id : ReleaseId} (head : w.db.ringHeads ring = some id) :
    ∃ members, (releaseMembers id).run w = (.ok members, w) := by
  have found : (w.db.headRing? id).isSome := by
    rw [Db.headRing?, List.find?_isSome]
    exact ⟨ring, mem_rings ring, by simp [head]⟩
  obtain ⟨asHead, isHead⟩ := Option.isSome_iff_exists.mp found
  refine ⟨.ring asHead, ?_⟩
  unfold releaseMembers
  simp only [Program.bind_eq, Program.run_bind, run_query, isHead]
  rfl

/-- A number kept on the row of a head is there, or computed from the ring's rows and kept. -/
theorem summary_head {id : ReleaseId} (head : w.db.ringHeads ring = some id) :
    ∃ summary w', (releaseSummary id).run w = (.ok summary, w') ∧ Recounted w w' := by
  obtain ⟨members, listed⟩ := members_head head
  unfold releaseSummary
  simp only [Program.bind_eq, Program.run_bind, run_query]
  split
  · exact ⟨_, w, rfl, .refl w⟩
  · simp only [Program.run_bind, listed, run_query]
    exact ⟨_, _, rfl, Recounted.updateRelease w id _ fun r => ⟨rfl, fun flag => flag⟩⟩

theorem sources_head {id : ReleaseId} (head : w.db.ringHeads ring = some id) :
    ∃ sources w', (releaseSources id).run w = (.ok sources, w') ∧ Recounted w w' := by
  obtain ⟨members, listed⟩ := members_head head
  unfold releaseSources
  simp only [Program.bind_eq, Program.run_bind, run_query]
  split
  · exact ⟨_, w, rfl, .refl w⟩
  · simp only [Program.run_bind, listed, run_query]
    exact ⟨_, _, rfl, Recounted.updateRelease w id _ fun r => ⟨rfl, fun flag => flag⟩⟩

/-- The next `seq` of a ring is not taken. -/
theorem createRelease_own (ordered : w.db.Ordered) :
    (w.db.createRelease (body.ownBatch ring removeArch w.db)) =
      .ok (w.db.applyRelease (body.ownBatch ring removeArch w.db)) := by
  have free : (w.db.ofRing ring).any (·.seq == w.db.maxSeq ring + 1) = false := by
    rw [List.any_eq_false]
    intro r member taken
    have isSeq : r.seq = w.db.maxSeq ring + 1 := by simpa using taken
    have listed : r.seq ∈ (w.db.ofRing ring).map (·.seq) := List.mem_map_of_mem member
    rw [ordered.seqs ring, List.mem_range'_1, ← ordered.maxSeq_eq ring] at listed
    omega
  unfold Db.createRelease CreateRelease.ownBatch
  dsimp only
  rw [free]
  rfl

theorem readArch_own (removeArch : Option Arch) (error : String) (w : World) :
    (readArch (removeArch.map Arch.name) error).run w = (.ok removeArch, w) := by
  cases removeArch with
  | none => rfl
  | some arch =>
      unfold readArch
      simp only [Option.map_some, isRepoArch_name]
      rfl

theorem run_batch {event : Event} {write : Db → Except Failure Db} {db : Db} (applied : write w.db = .ok db) :
    (D1.batch event write).run w = (.ok (), w.commit db) := by
  unfold D1.batch Program.transact
  simp only [Program.run, applied]
  rfl

/-- The row the batch inserts is the one its `(ring, seq)` finds. -/
theorem find_made (ordered : w.db.Ordered) {b : CreateBatch} (next : b.seq = (w.db.ofRing b.ring).length + 1) :
    ((w.db.applyRelease b).ofRing b.ring).find? (·.seq == b.seq) = some (b.row w.db.nextRelease) := by
  have older : (w.db.ofRing b.ring).find? (·.seq == b.seq) = none := by
    rw [List.find?_eq_none]
    intro r member taken
    have isSeq : r.seq = b.seq := by simpa using taken
    have listed : r.seq ∈ (w.db.ofRing b.ring).map (·.seq) := List.mem_map_of_mem member
    rw [ordered.seqs b.ring, List.mem_range'_1] at listed
    omega
  rw [Db.applyRelease_ofRing, if_pos rfl, List.find?_append, older]
  simp [CreateBatch.row]

/-- **Alone, a request without a base answers and moves its ring to its batch's target**; after the batch it writes
nothing but counts kept on the release's row. -/
theorem create_own (ordered : w.db.Ordered) (own : OwnRequest body ring removeArch)
    (indexed : w.db.AllIndexed body.add removeArch) :
    ∃ created, ((handleCreateRelease body).run w).1 = .ok created ∧
      Recounted (w.commit (w.db.applyRelease (body.ownBatch ring removeArch w.db)))
        ((handleCreateRelease body).run w).2 := by
  have next : (body.ownBatch ring removeArch w.db).seq = (w.db.ofRing ring).length + 1 := by
    rw [← ordered.maxSeq_eq ring]
    rfl
  let made := w.commit (w.db.applyRelease (body.ownBatch ring removeArch w.db))
  have head : made.db.ringHeads ring = some w.db.nextRelease := by
    simp [made, CreateRelease.ownBatch]
  obtain ⟨summary, w₁, summarized, toFirst⟩ := summary_head head
  have head₁ : w₁.db.ringHeads ring = some w.db.nextRelease := by rw [toFirst.releases.heads, head]
  obtain ⟨sources, w₂, sourced, toSecond⟩ := sources_head head₁
  have later := toFirst.trans toSecond
  have kept : (w₂.db.release? w.db.nextRelease).isSome := by
    have present := later.releases.release?_isNone w.db.nextRelease
    rw [show made.db = w.db.applyRelease (body.ownBatch ring removeArch w.db) from rfl,
      ordered.applyRelease_release?, if_pos rfl] at present
    rw [Option.isSome_iff_ne_none]
    intro none_
    rw [none_] at present
    simp at present
  obtain ⟨release, isRelease⟩ := Option.isSome_iff_exists.mp kept
  have ran : (handleCreateRelease body).run w =
      (.ok ⟨release, summary, (body.ownBatch ring removeArch w.db).unchanged⟩, w₂) := by
    unfold handleCreateRelease
    simp only [own.ring, Program.bind_eq, Program.run_bind, run_query]
    have source : (resolveSource ring body).run w = (.ok none, w) := by
      unfold resolveSource
      simp only [own.noRelease, own.noRing]
      rfl
    have onlyArch : (readArch none "arch must be x86_64 or aarch64").run w = (.ok none, w) := rfl
    have base : (baseSql ring none (w.db.ringHead ring) none).run w =
        (.ok (if (w.db.ringHead ring).isSome then .ring ring else .none), w) := rfl
    simp only [source, own.removeArch, readArch_own, resolveAdds_own indexed, own.noArch, onlyArch, Option.isSome_none,
      Bool.false_and, Bool.false_eq_true, if_false, Program.run_bind, run_query, base]
    have batched : (D1.batch (.create (body.ownBatch ring removeArch w.db))
        (·.createRelease (body.ownBatch ring removeArch w.db))).run w = (.ok (), made) :=
      run_batch (createRelease_own ordered)
    have found : (made.db.ofRing ring).find? (·.seq == w.db.maxSeq ring + 1) =
        some ((body.ownBatch ring removeArch w.db).row w.db.nextRelease) := find_made ordered next
    unfold CreateRelease.ownBatch at batched found
    simp only [Option.map_none, batched, found, CreateBatch.row, Program.run_bind, summarized, sourced, run_query, isRelease]
    rfl
  rw [ran]
  exact ⟨_, rfl, later⟩

/-! ## The rows after it -/

/-- The row is one an entry of `add` names. -/
def CreateRelease.Adds (body : CreateRelease) (removeArch : Option Arch) (p : Package) : Prop :=
  removeArch.all (· == p.repoArch) = true ∧
    ∃ entry ∈ body.add, (Wanted.ofEntry entry).sha = p.sha256 ∧
      (Wanted.ofEntry entry).arch.all (· == p.repoArch.name) = true

/-- The row is of a name the request removes. -/
def CreateRelease.Removes (body : CreateRelease) (removeArch : Option Arch) (p : Package) : Prop :=
  (p.name ∈ body.remove ∨ (p.source, p.name) ∈ body.removeFrom) ∧ removeArch.all (· == p.repoArch) = true

theorem noSlash {sha : String} (plain : '/' ∉ sha.toList) : ∀ c ∈ sha.toList, (c ≠ '/' : Bool) = true := by
  intro c member
  simp only [ne_eq, decide_not, Bool.not_eq_true', decide_eq_false_iff_not]
  rintro rfl
  exact plain member

theorem ofEntry_plain {sha : String} (plain : '/' ∉ sha.toList) : Wanted.ofEntry sha = ⟨sha, sha, none⟩ := by
  have rest : sha.toList.dropWhile (fun c => (c ≠ '/' : Bool)) = [] := List.dropWhile_eq_nil_iff.mpr (noSlash plain)
  have front : sha.toList.takeWhile (fun c => (c ≠ '/' : Bool)) = sha.toList :=
    List.takeWhile_eq_self_iff.mpr (noSlash plain)
  unfold Wanted.ofEntry
  simp only [rest, front, String.ofList_toList]

theorem ofEntry_ofArch {sha : String} (plain : '/' ∉ sha.toList) (arch : Arch) :
    Wanted.ofEntry (sha ++ "/" ++ arch.name) = ⟨sha ++ "/" ++ arch.name, sha, some arch.name⟩ := by
  have chars : (sha ++ "/" ++ arch.name).toList = sha.toList ++ '/' :: arch.name.toList := by simp
  have front : (sha ++ "/" ++ arch.name).toList.takeWhile (fun c => (c ≠ '/' : Bool)) = sha.toList := by
    rw [chars, List.takeWhile_append_of_pos (noSlash plain)]
    simp
  have rest : (sha ++ "/" ++ arch.name).toList.dropWhile (fun c => (c ≠ '/' : Bool)) = '/' :: arch.name.toList := by
    rw [chars, List.dropWhile_append_of_pos (noSlash plain)]
    simp
  have name : arch.name.toList.takeWhile (fun c => (c ≠ '/' : Bool)) = arch.name.toList := by cases arch <;> decide
  unfold Wanted.ofEntry
  simp only [front, rest, name, String.ofList_toList]

theorem mem_addedIds_iff {db : Db} (distinct : (db.packages.map (·.id)).Nodup) {p : Package}
    (member : p ∈ db.packages) : p.id ∈ db.addedIds body.add removeArch ↔ body.Adds removeArch p := by
  simp only [Db.addedIds, CreateRelease.Adds, List.mem_eraseDups, List.mem_flatMap, List.mem_map, Wanted.rowsOf,
    Db.addRows, List.mem_filter, Bool.and_eq_true, beq_iff_eq, List.contains_iff_mem]
  constructor
  · rintro ⟨_, ⟨entry, isEntry, rfl⟩, q, ⟨⟨memQ, -, within⟩, sha, arch⟩, sameId⟩
    have same : q = p := List.inj_on_of_nodup_map distinct memQ member sameId
    subst same
    exact ⟨within, entry, isEntry, sha.symm, arch⟩
  · rintro ⟨within, entry, isEntry, sha, arch⟩
    exact ⟨_, ⟨entry, isEntry, rfl⟩, p, ⟨⟨member, ⟨_, ⟨entry, isEntry, rfl⟩, sha⟩, within⟩, sha.symm, arch⟩, rfl⟩

/-- An entry names a row exactly when it adds one. -/
theorem allIndexed_iff {db : Db} :
    db.AllIndexed body.add removeArch ↔ ∀ entry ∈ body.add, ∃ p ∈ db.packages, (Wanted.ofEntry entry).sha = p.sha256 ∧
      removeArch.all (· == p.repoArch) = true ∧ (Wanted.ofEntry entry).arch.all (· == p.repoArch.name) = true := by
  unfold Db.AllIndexed
  refine forall₂_congr fun entry isEntry => ?_
  rw [← List.isEmpty_eq_false_iff, List.isEmpty_eq_false_iff_exists_mem]
  simp only [Wanted.rowsOf, Db.addRows, List.mem_filter, Bool.and_eq_true, beq_iff_eq, List.contains_iff_mem, List.mem_map]
  constructor
  · rintro ⟨p, ⟨⟨member, -, within⟩, sha, arch⟩⟩
    exact ⟨p, member, sha.symm, within, arch⟩
  · rintro ⟨p, member, sha, within, arch⟩
    exact ⟨p, ⟨⟨member, ⟨_, ⟨entry, isEntry, rfl⟩, sha⟩, within⟩, sha.symm, arch⟩⟩

/-- A ring without a head serves nothing, so the base is what the ring serves in either case. -/
theorem ownBase_rows (well : w.db.WellIndexed) (ring : Ring) :
    (if (w.db.ringHead ring).isSome then Members.ring ring else Members.none).rows w.db = w.db.ringPackages ring := by
  cases head : w.db.ringHeads ring with
  | none =>
      have headless : w.db.ringHead ring = none := by simp [Db.ringHead, head]
      rw [headless, well.idle ring head]
      rfl
  | some id =>
      obtain ⟨r, member, sameId, -⟩ := well.ordered.head_row head
      have isHead : w.db.ringHead ring = some r := by
        rw [Db.ringHead, head, Option.bind_some, well.ordered.release?_eq_some]
        exact ⟨(Db.mem_ofRing.mp member).1, sameId⟩
      rw [isHead]
      rfl

/-- **What a ring serves after the request**: the rows added, and those of before that are neither removed nor in
the place of an added one. -/
theorem mem_ownTarget (well : w.db.WellIndexed) {p : Package} (member : p ∈ w.db.packages) :
    p.id ∈ (body.ownBatch ring removeArch w.db).target w.db ↔
      body.Adds removeArch p ∨ (p.id ∈ w.db.ringPackages ring ∧ ¬ body.Removes removeArch p ∧
        ∀ q ∈ w.db.packages, body.Adds removeArch q → q.slot ≠ p.slot) := by
  have replaces : (body.ownBatch ring removeArch w.db).replaces w.db p = true ↔
      ∃ q ∈ w.db.packages, body.Adds removeArch q ∧ q.slot = p.slot := by
    simp only [CreateBatch.replaces, CreateRelease.ownBatch, List.any_eq_true, Bool.and_eq_true, List.contains_iff_mem,
      beq_iff_eq]
    constructor
    · rintro ⟨q, memQ, added, same⟩
      exact ⟨q, memQ, (mem_addedIds_iff well.distinct memQ).mp added, same⟩
    · rintro ⟨q, memQ, added, same⟩
      exact ⟨q, memQ, (mem_addedIds_iff well.distinct memQ).mpr added, same⟩
  have removes : (body.ownBatch ring removeArch w.db).removes p = true ↔ body.Removes removeArch p := by
    simp only [CreateBatch.removes, CreateRelease.ownBatch, CreateRelease.Removes, Bool.and_eq_true, Bool.or_eq_true,
      List.contains_iff_mem]
  have added : p.id ∈ (body.ownBatch ring removeArch w.db).added ↔ body.Adds removeArch p :=
    mem_addedIds_iff well.distinct member
  have base : (body.ownBatch ring removeArch w.db).base.rows w.db = w.db.ringPackages ring := ownBase_rows well ring
  rw [CreateBatch.target, Finset.mem_union, Db.mem_select well.distinct member, List.mem_toFinset, added, base,
    Bool.and_eq_true, Bool.not_eq_true', Bool.not_eq_true', ← Bool.not_eq_true, ← Bool.not_eq_true, replaces, removes]
  push Not
  exact or_comm

theorem Db.WellIndexed.recounted {w' : World} (well : w.db.WellIndexed) (counted : Recounted w w') :
    w'.db.WellIndexed where
  ordered := counted.releases.ordered well.ordered
  distinct := by rw [counted.packages]; exact well.distinct
  oneRow := by rw [counted.packages]; exact well.oneRow
  plain := by rw [counted.packages]; exact well.plain
  idle := by rw [counted.releases.heads, counted.ringPackages]; exact well.idle
  listed := by rw [counted.packages, counted.ringPackages]; exact well.listed

theorem Db.WellIndexed.applied (well : w.db.WellIndexed) :
    (w.db.applyRelease (body.ownBatch ring removeArch w.db)).WellIndexed where
  ordered := by
    apply well.ordered.applyRelease
    rw [← well.ordered.maxSeq_eq]
    rfl
  distinct := by rw [Db.applyRelease_packages]; exact well.distinct
  oneRow := by rw [Db.applyRelease_packages]; exact well.oneRow
  plain := by rw [Db.applyRelease_packages]; exact well.plain
  idle := by
    intro ring' none_
    rw [Db.applyRelease_ringHeads] at none_
    rw [Db.applyRelease_ringPackages]
    by_cases same : ring' = (body.ownBatch ring removeArch w.db).ring
    · rw [same, Function.update_self] at none_
      cases none_
    · rw [Function.update_of_ne same] at none_ ⊢
      exact well.idle ring' none_
  listed := by
    intro ring' id inRing
    rw [Db.applyRelease_ringPackages] at inRing
    rw [Db.applyRelease_packages]
    by_cases same : ring' = (body.ownBatch ring removeArch w.db).ring
    · have base : (body.ownBatch ring removeArch w.db).base.rows w.db = w.db.ringPackages ring :=
        ownBase_rows well ring
      rw [same, Function.update_self, CreateBatch.target, base, Finset.mem_union, List.mem_toFinset] at inRing
      rcases inRing with stays | added
      · exact well.listed ring id (Finset.mem_filter.mp stays).1
      · exact mem_addedIds added
    · rw [Function.update_of_ne same] at inRing
      exact well.listed ring' id inRing

/-- The request made from the ring's own rows, as one step of the index. -/
structure OwnRelease (body : CreateRelease) (ring : Ring) (removeArch : Option Arch) (db db' : Db) : Prop where
  packages : db'.packages = db.packages
  rows : ∀ p, p ∈ db'.ringRows ring ↔ p ∈ db.packages ∧ (body.Adds removeArch p ∨
    (p ∈ db.ringRows ring ∧ ¬ body.Removes removeArch p ∧ ∀ q ∈ db.packages, body.Adds removeArch q → q.slot ≠ p.slot))
  others : ∀ ring', ring' ≠ ring → db'.ringPackages ring' = db.ringPackages ring'
  well : db'.WellIndexed

/-- A row that is not removed leaves its slot to an added row only. -/
theorem OwnRelease.slot_stays {db db' : Db} (step : OwnRelease body ring removeArch db db') {p : Package}
    (inRing : p ∈ db.ringRows ring) (stays : ¬ body.Removes removeArch p) : ∃ q ∈ db'.ringRows ring, q.slot = p.slot := by
  by_cases replaced : ∃ q ∈ db.packages, body.Adds removeArch q ∧ q.slot = p.slot
  · obtain ⟨q, inTable, adds, same⟩ := replaced
    exact ⟨q, (step.rows q).mpr ⟨inTable, .inl adds⟩, same⟩
  · push Not at replaced
    exact ⟨p, (step.rows p).mpr ⟨(mem_ringRows.mp inRing).1, .inr ⟨inRing, stays, replaced⟩⟩, rfl⟩

/-- **Alone, a request without a base makes one such step** once every entry of `add` names an indexed row. -/
theorem ownRelease (well : w.db.WellIndexed) (own : OwnRequest body ring removeArch)
    (indexed : w.db.AllIndexed body.add removeArch) :
    ∃ created, ((handleCreateRelease body).run w).1 = .ok created ∧
      OwnRelease body ring removeArch w.db ((handleCreateRelease body).run w).2.db := by
  obtain ⟨created, answered, counted⟩ := create_own well.ordered own indexed
  let b := body.ownBatch ring removeArch w.db
  have packages : ((handleCreateRelease body).run w).2.db.packages = w.db.packages :=
    counted.packages.trans (Db.applyRelease_packages _ _)
  have ringPackages : ((handleCreateRelease body).run w).2.db.ringPackages =
      Function.update w.db.ringPackages ring (b.target w.db) :=
    counted.ringPackages.trans (Db.applyRelease_ringPackages _ _)
  refine ⟨created, answered, packages, ?_, ?_, well.applied.recounted counted⟩
  · intro p
    rw [mem_ringRows, packages, ringPackages, Function.update_self, mem_ringRows]
    constructor
    · rintro ⟨member, inTarget⟩
      rcases (mem_ownTarget well member).mp inTarget with adds | ⟨inRing, stays⟩
      · exact ⟨member, .inl adds⟩
      · exact ⟨member, .inr ⟨⟨member, inRing⟩, stays⟩⟩
    · rintro ⟨member, adds | ⟨⟨-, inRing⟩, stays⟩⟩
      · exact ⟨member, (mem_ownTarget well member).mpr (.inl adds)⟩
      · exact ⟨member, (mem_ownTarget well member).mpr (.inr ⟨inRing, stays⟩)⟩
  · intro ring' differs
    rw [ringPackages, Function.update_of_ne differs]

end Own

end OmarchyPool
