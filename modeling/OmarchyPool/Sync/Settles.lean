/-
# OmarchyPool.Sync.Settles -- no name upstream lists is lost, and a second run changes nothing

A row a release does not pin stays unless its name left upstream or a pinned row takes its slot, so a name upstream
lists stays served (`names_stay`).

The rest needs the index and upstream to agree on what a hash and a filename stand for (`Agrees`).  Then every pinned
row is one of this source under upstream's name (`adds_named`), and a second run computes the selection of the first
from the rows it left (`again`): what was imported is known, what collided collides still, what failed fails.
-/
import OmarchyPool.Sync.Pinned

namespace OmarchyPool.Sync

open OmarchyPool.Lib

set_option autoImplicit false

section Terms

variable (opts : SyncOptions) (imports : UpstreamPackage → Except String Manifest) (upstream : List UpstreamPackage)
  (db : Db)

/-- The packages whose import a run tries and does not get. -/
def failing : List UpstreamPackage :=
  (withinLimit opts (classified opts upstream db).missing).filter fun p => (imports p).toOption.isNone

/-- What a hash and a filename of upstream stand for is the same in the index and upstream. -/
structure Agrees : Prop where
  shas : (upstream.map (·.sha256)).Nodup
  filenames : (upstream.map (·.filename)).Nodup
  byHash : ∀ p ∈ upstream, ∀ q ∈ db.packages, q.sha256 = p.sha256 → q.repoArch = opts.arch →
    q.source = opts.source ∧ q.name = p.name ∧ q.filename = p.filename
  byFile : ∀ p ∈ upstream, ∀ q ∈ db.packages, Mine opts q → q.filename = p.filename → q.name = p.name
  manifest : ∀ p ∈ upstream, ∀ m, imports p = .ok m → m.name = p.name

/-- What a run comes to: nothing written, the imports alone, or a release of its selection. -/
inductive Outcome (db : Db) : Option (ReleaseId × Nat) → Db → Prop where
  | dry : opts.dryRun = true → Outcome db none db
  | imported : opts.dryRun = false →
      (selected opts imports upstream db).unchanged = true ∨ opts.deferRelease = true →
      Outcome db none (importedBy opts imports upstream db).1
  | released {release : ReleaseId × Nat} {db' : Db} (note : String) : opts.dryRun = false →
      (selected opts imports upstream db).unchanged = false → opts.deferRelease = false →
      OwnRelease (releaseRequest opts (selected opts imports upstream db) note) opts.ring (some opts.arch)
        (importedBy opts imports upstream db).1 db' →
      Outcome db (some release) db'

end Terms

section Run

variable {opts : SyncOptions} {imports : UpstreamPackage → Except String Manifest} {upstream : List UpstreamPackage}

/-- **A run answers, and comes to one of its outcomes.** -/
theorem run_outcome {w : World} (well : w.db.WellIndexed) (plain : ∀ p ∈ upstream, '/' ∉ p.sha256.toList) :
    ∃ report, (run opts imports upstream w).1 = .ok report ∧
      report.collisions = (classified opts upstream w.db).collisions ∧
      report.deferred = (classified opts upstream w.db).missing.length -
        (withinLimit opts (classified opts upstream w.db).missing).length ∧
      Outcome opts imports upstream w.db report.release (run opts imports upstream w).2.db := by
  unfold run
  dsimp only
  by_cases dry : opts.dryRun
  · rw [if_pos dry]
    exact ⟨_, rfl, rfl, rfl, .dry dry⟩
  have isWet : opts.dryRun = false := by simpa using dry
  rw [if_neg dry]
  split
  · rename_i unchanged
    exact ⟨_, rfl, rfl, rfl, .imported isWet (.inl unchanged)⟩
  rename_i changed
  have isChanged : (selected opts imports upstream w.db).unchanged = false :=
    Bool.eq_false_of_not_eq_true changed
  split
  · rename_i deferred
    exact ⟨_, rfl, rfl, rfl, .imported isWet (.inr deferred)⟩
  rename_i now
  have isNow : opts.deferRelease = false := Bool.eq_false_of_not_eq_true now
  have grown := @grown_importedBy opts imports upstream w.db well plain
  generalize syncNote opts _ = note
  have own : OwnRequest (releaseRequest opts (selected opts imports upstream w.db) note) opts.ring (some opts.arch) :=
    ⟨isRing_name opts.ring, rfl, rfl, rfl, rfl⟩
  have indexed : (importedBy opts imports upstream w.db).1.AllIndexed
      (releaseRequest opts (selected opts imports upstream w.db) note).add (some opts.arch) := by
    rw [allIndexed_iff]
    intro sha pinned
    obtain ⟨q, inTable, rfl, isArch⟩ := add_indexed well plain pinned
    rw [ofEntry_plain (grown.well.plain q inTable)]
    exact ⟨q, inTable, rfl, by rw [Option.all_some, beq_iff_eq, isArch], rfl⟩
  obtain ⟨created, answered, step⟩ :=
    @ownRelease (w.commit (importedBy opts imports upstream w.db).1) _ _ _ grown.well own indexed
  let request := releaseRequest opts (selected opts imports upstream w.db) note
  have ran : (handleCreateRelease request).run (w.commit (importedBy opts imports upstream w.db).1) =
      (.ok created, ((handleCreateRelease request).run (w.commit (importedBy opts imports upstream w.db).1)).2) :=
    Prod.ext answered rfl
  unfold request selected importedBy classified keptOf at ran
  rw [ran]
  exact ⟨_, rfl, rfl, rfl, .released note isWet isChanged isNow step⟩

/-! ## What a ring serves after a run -/

section Rows

variable {db : Db} (well : db.WellIndexed) (plain : ∀ p ∈ upstream, '/' ∉ p.sha256.toList)
include well plain

/-- The imports leave what a ring serves. -/
theorem ringRows_importedBy {ring : Ring} {q : Package} :
    q ∈ (importedBy opts imports upstream db).1.ringRows ring ↔ q ∈ db.ringRows ring := by
  have grown := @grown_importedBy opts imports upstream db well plain
  have same : (importedBy opts imports upstream db).1.ringPackages = db.ringPackages := by
    obtain ⟨packages, isGrown⟩ := grown.same
    rw [isGrown]
  rw [mem_ringRows, mem_ringRows, same]
  constructor
  · rintro ⟨inTable, inRing⟩
    obtain ⟨p, member, sameId⟩ := well.listed ring q.id inRing
    have isRow : p = q := List.inj_on_of_nodup_map grown.well.distinct (grown.old p member) inTable sameId
    exact ⟨isRow ▸ member, inRing⟩
  · rintro ⟨inTable, inRing⟩
    exact ⟨grown.old q inTable, inRing⟩

/-- **A name the ring serves and upstream lists stays served**, by this source or by one it gives way to. -/
theorem names_stay (self : opts.source ∉ opts.deferTo) {release : Option (ReleaseId × Nat)} {db' : Db}
    (outcome : Outcome opts imports upstream db release db') {q : Package} (inRing : q ∈ db.ringRows opts.ring)
    (mine : Mine opts q) (listed : q.name ∈ upstream.map (·.name)) :
    ∃ q' ∈ db'.ringRows opts.ring, q'.name = q.name ∧ q'.repoArch = opts.arch ∧
      (q'.source = opts.source ∨ q'.source ∈ opts.deferTo) := by
  cases outcome with
  | dry _ => exact ⟨q, inRing, rfl, mine.2, .inl mine.1⟩
  | imported _ _ => exact ⟨q, (ringRows_importedBy well plain).mpr inRing, rfl, mine.2, .inl mine.1⟩
  | released note _ _ _ step =>
      by_cases kept : q.name ∈ (keptOf opts upstream db).map (·.name)
      · obtain ⟨q', serves, same⟩ := step.slot_stays ((ringRows_importedBy well plain).mpr inRing)
          fun removed => ((removes_iff well).mp removed).2.1 kept
        obtain ⟨source, name, arch⟩ : q'.source = q.source ∧ q'.name = q.name ∧ q'.repoArch = q.repoArch := by
          simpa [Package.slot] using same
        exact ⟨q', serves, name, arch.trans mine.2, .inl (source.trans mine.1)⟩
      · -- a source this one gives way to serves the name, and its rows are not this run's to remove
        obtain ⟨p, isListed, isName⟩ := List.mem_map.mp listed
        have won : ∃ r ∈ db.ringRows opts.ring, r.repoArch = opts.arch ∧ r.source ∈ opts.deferTo ∧ r.name = p.name := by
          by_contra free
          push Not at free
          exact kept (List.mem_map.mpr ⟨p, (mem_keptOf well).mpr ⟨isListed, free⟩, isName⟩)
        obtain ⟨r, rInRing, isArch, wins, rName⟩ := won
        obtain ⟨q', serves, same⟩ := step.slot_stays ((ringRows_importedBy well plain).mpr rInRing)
          fun removed => self (((removes_iff well).mp removed).1.1 ▸ wins)
        obtain ⟨source, name, arch⟩ : q'.source = r.source ∧ q'.name = r.name ∧ q'.repoArch = r.repoArch := by
          simpa [Package.slot] using same
        exact ⟨q', serves, name.trans (rName.trans isName), arch.trans isArch, .inr (source ▸ wins)⟩

/-! ## Where the index and upstream agree -/

variable (agrees : Agrees opts imports upstream db)
include agrees

theorem agrees_importedBy : Agrees opts imports upstream (importedBy opts imports upstream db).1 where
  shas := agrees.shas
  filenames := agrees.filenames
  manifest := agrees.manifest
  byHash := by
    intro p listed q inTable isSha isArch
    rcases (@grown_importedBy opts imports upstream db well plain).new q inTable with
      old | ⟨p', tried, m, got, mine, ofP, name, file⟩
    · exact agrees.byHash p listed q old isSha isArch
    · have listed' := mem_keptOf_sub (mem_tried tried)
      have same : p' = p := List.inj_on_of_nodup_map agrees.shas listed' listed (ofP.symm.trans isSha)
      subst same
      exact ⟨mine.1, name.trans (agrees.manifest p' listed m got), file⟩
  byFile := by
    intro p listed q inTable mine isFile
    rcases (@grown_importedBy opts imports upstream db well plain).new q inTable with
      old | ⟨p', tried, m, got, -, -, name, file⟩
    · exact agrees.byFile p listed q old mine isFile
    · have listed' := mem_keptOf_sub (mem_tried tried)
      have same : p' = p := List.inj_on_of_nodup_map agrees.filenames listed' listed (file.symm.trans isFile)
      subst same
      exact name.trans (agrees.manifest p' listed m got)

/-- Every row a run pins is its own, under a name it keeps of upstream. -/
theorem adds_named {note : String} {q : Package} (inTable : q ∈ (importedBy opts imports upstream db).1.packages)
    (adds : (releaseRequest opts (selected opts imports upstream db) note).Adds (some opts.arch) q) :
    Mine opts q ∧ q.name ∈ (keptOf opts upstream db).map (·.name) := by
  have grown := @grown_importedBy opts imports upstream db well plain
  obtain ⟨isArch, pinned⟩ := (adds_iff well plain).mp adds
  rcases (mem_add well plain).mp pinned with ⟨p, kept, isSha, -⟩ | ⟨p, kept, collides⟩
  · obtain ⟨source, name, -⟩ :=
      (agrees_importedBy well plain agrees).byHash p (mem_keptOf_sub kept) q inTable isSha.symm isArch
    exact ⟨⟨source, isArch⟩, List.mem_map.mpr ⟨p, kept, name.symm⟩⟩
  · obtain ⟨r, stored, isSha⟩ := byFilename_some (collision_some.mp collides).1
    obtain ⟨rInTable, mine, isFile⟩ := mem_storedRows stored
    have same : r = q := grown.well.oneRow r (grown.old r rInTable) q inTable isSha (mine.2.trans isArch.symm)
    subst same
    exact ⟨mine, List.mem_map.mpr ⟨p, kept, (agrees.byFile p (mem_keptOf_sub kept) r rInTable mine isFile).symm⟩⟩

/-- **The rows of other sources and architectures stay as they were.** -/
theorem others_stay {release : Option (ReleaseId × Nat)} {db' : Db}
    (outcome : Outcome opts imports upstream db release db') {q : Package} (other : ¬ Mine opts q) :
    q ∈ db'.ringRows opts.ring ↔ q ∈ db.ringRows opts.ring := by
  cases outcome with
  | dry _ => exact Iff.rfl
  | imported _ _ => exact ringRows_importedBy well plain
  | released note _ _ _ step =>
      rw [step.rows, ← ringRows_importedBy well plain]
      constructor
      · rintro ⟨inTable, adds | ⟨inRing, -⟩⟩
        · exact absurd (adds_named well plain agrees inTable adds).1 other
        · exact inRing
      · intro inRing
        refine ⟨(mem_ringRows.mp inRing).1, .inr ⟨inRing, fun removed => other ((removes_iff well).mp removed).1, ?_⟩⟩
        intro r inTable adds same
        obtain ⟨source, -, arch⟩ : r.source = q.source ∧ r.name = q.name ∧ r.repoArch = q.repoArch := by
          simpa [Package.slot] using same
        have mine := (adds_named well plain agrees inTable adds).1
        exact other ⟨source.symm.trans mine.1, arch.symm.trans mine.2⟩

/-- **What collides is not pinned**: the object under its filename is. -/
theorem collides_unpinned {p : UpstreamPackage} (kept : p ∈ keptOf opts upstream db)
    (collides : (collision db opts p).isSome) : p.sha256 ∉ (selected opts imports upstream db).add := by
  intro pinned
  rcases (mem_add well plain).mp pinned with ⟨p', kept', isSha, free, -⟩ | ⟨p', kept', collides'⟩
  · have same : p' = p := List.inj_on_of_nodup_map agrees.shas (mem_keptOf_sub kept') (mem_keptOf_sub kept) isSha
    subst same
    exact free (mem_colliding.mpr ⟨p', kept, rfl, collides⟩)
  · obtain ⟨found, differs⟩ := collision_some.mp collides'
    obtain ⟨r, stored, isSha⟩ := byFilename_some found
    obtain ⟨inTable, mine, isFile⟩ := mem_storedRows stored
    have file := (agrees.byHash p (mem_keptOf_sub kept) r inTable isSha mine.2).2.2
    have same : p' = p := List.inj_on_of_nodup_map agrees.filenames (mem_keptOf_sub kept') (mem_keptOf_sub kept)
      (isFile.symm.trans file)
    exact differs (same ▸ rfl)

/-! ## The second run -/

section Again

variable (self : opts.source ∉ opts.deferTo) {db₁ : Db} (well₁ : db₁.WellIndexed)
  (index : db₁.packages = (importedBy opts imports upstream db).1.packages)
  (others : ∀ q, ¬ Mine opts q → (q ∈ db₁.ringRows opts.ring ↔ q ∈ db.ringRows opts.ring))
include self well₁ index others

omit plain agrees index in
/-- The names other sources win are of rows the run left. -/
theorem kept_again {p : UpstreamPackage} : p ∈ keptOf opts upstream db₁ ↔ p ∈ keptOf opts upstream db := by
  have foreign : ∀ q : Package, q.source ∈ opts.deferTo → ¬ Mine opts q := fun q wins mine => self (mine.1 ▸ wins)
  rw [mem_keptOf well₁, mem_keptOf well]
  refine and_congr_right fun _ => ⟨fun free q inRing arch wins => ?_, fun free q inRing arch wins => ?_⟩
  · exact free q ((others q (foreign q wins)).mpr inRing) arch wins
  · exact free q ((others q (foreign q wins)).mp inRing) arch wins

omit self well₁ others in
/-- An import puts under a filename the hash upstream has for it, so what collided collides still. -/
theorem collision_again {p : UpstreamPackage} (kept : p ∈ keptOf opts upstream db) :
    collision db₁ opts p = collision db opts p := by
  have grown := @grown_importedBy opts imports upstream db well plain
  have now : byFilename db₁ opts.source opts.arch p.filename =
      byFilename (importedBy opts imports upstream db).1 opts.source opts.arch p.filename := by
    unfold byFilename
    rw [index]
  unfold collision
  rw [now]
  cases before : byFilename db opts.source opts.arch p.filename with
  | some sha => rw [grown.stored _ _ before]
  | none =>
      cases after : byFilename (importedBy opts imports upstream db).1 opts.source opts.arch p.filename with
      | none => rfl
      | some sha =>
          obtain ⟨p', tried, isFile, isSha⟩ := grown.fresh _ _ before after
          have same : p' = p := List.inj_on_of_nodup_map agrees.filenames (mem_keptOf_sub (mem_tried tried))
            (mem_keptOf_sub kept) isFile
          rw [← isSha, same]
          simp

theorem colliding_again {filename : String} : filename ∈ (classified opts upstream db₁).collisions.map (·.1) ↔
    filename ∈ (classified opts upstream db).collisions.map (·.1) := by
  rw [mem_colliding, mem_colliding]
  refine exists_congr fun p => ?_
  rw [kept_again well self well₁ others]
  refine and_congr_right fun kept => ?_
  rw [collision_again well plain agrees index kept]

variable (all : withinLimit opts (classified opts upstream db).missing = (classified opts upstream db).missing)
include all

/-- What is missing again is what failed. -/
theorem missing_again {p : UpstreamPackage} (missing : p ∈ (classified opts upstream db₁).missing) :
    p ∈ failing opts imports upstream db := by
  obtain ⟨kept, unknown, free⟩ := mem_missing.mp missing
  have still : indexed (importedBy opts imports upstream db).1 p.sha256 opts.arch = false := by
    unfold indexed at unknown ⊢
    rw [← index, unknown]
  rw [← Bool.not_eq_true, indexed_importedBy well plain] at still
  push Not at still
  have before : p ∈ (classified opts upstream db).missing := by
    refine mem_missing.mpr ⟨(kept_again well self well₁ others).mp kept, Bool.eq_false_of_not_eq_true still.1, ?_⟩
    exact fun collides => free ((colliding_again well plain agrees self well₁ index others).mpr collides)
  refine List.mem_filter.mpr ⟨all.symm ▸ before, ?_⟩
  rw [Option.isNone_iff_eq_none, ← Option.not_isSome_iff_eq_none]
  exact fun got => still.2 p (mem_done.mpr ⟨all.symm ▸ before, got⟩) rfl

/-- So the second run's imports fail as the first's did. -/
theorem importedBy_again : (importedBy opts imports upstream db₁).1 = db₁ := by
  refine importAll_failed fun p tried => ?_
  have failed := missing_again well plain agrees self well₁ index others all (mem_withinLimit tried)
  simpa using (List.mem_filter.mp failed).2

/-- **The second run pins what the first pinned.** -/
theorem add_again {sha : String} :
    sha ∈ (selected opts imports upstream db₁).add ↔ sha ∈ (selected opts imports upstream db).add := by
  have known : indexed (importedBy opts imports upstream db₁).1 sha opts.arch =
      indexed (importedBy opts imports upstream db).1 sha opts.arch := by
    rw [importedBy_again well plain agrees self well₁ index others all]
    unfold indexed
    rw [index]
  rw [mem_add well₁ plain, mem_add well plain]
  refine or_congr (exists_congr fun p => ?_) (exists_congr fun p => ?_)
  · rw [kept_again well self well₁ others, colliding_again well plain agrees self well₁ index others, known]
  · rw [kept_again well self well₁ others]
    refine and_congr_right fun kept => ?_
    rw [collision_again well plain agrees index kept]

/-- A release leaves the rows of exactly its selection, where no failed import is of a name the ring serves. -/
theorem settled_release {note : String}
    (step : OwnRelease (releaseRequest opts (selected opts imports upstream db) note) opts.ring (some opts.arch)
      (importedBy opts imports upstream db).1 db₁)
    (served : ∀ p ∈ failing opts imports upstream db, ∀ q ∈ db.ringRows opts.ring, Mine opts q → q.name ≠ p.name) :
    (selected opts imports upstream db₁).unchanged = true := by
  have grown := @grown_importedBy opts imports upstream db well plain
  have names : ∀ name, name ∈ (keptOf opts upstream db).map (·.name) →
      name ∈ (keptOf opts upstream db₁).map (·.name) := by
    intro name listed
    obtain ⟨p, kept, isName⟩ := List.mem_map.mp listed
    exact List.mem_map.mpr ⟨p, (kept_again well self well₁ others).mpr kept, isName⟩
  have same_add := @add_again opts imports upstream db well plain agrees self db₁ well₁ index others all
  rw [unchanged_iff well₁]
  refine ⟨fun q inRing mine => ?_, fun sha pinned => ?_⟩
  · obtain ⟨inTable, adds | ⟨before, stays, free⟩⟩ := (step.rows q).mp inRing
    · exact ⟨names _ (adds_named well plain agrees inTable adds).2,
        same_add.mpr ((adds_iff well plain).mp adds).2⟩
    -- a row that only stayed is of a kept name, and the package of that name is neither pinned nor replaced
    · exfalso
      have inOld := (ringRows_importedBy well plain).mp before
      have kept : q.name ∈ (keptOf opts upstream db).map (·.name) := by
        by_contra gone
        exact stays ((removes_iff well).mpr ⟨mine, gone, q, inOld, mine, rfl⟩)
      obtain ⟨p, isKept, isName⟩ := List.mem_map.mp kept
      have unpinned : ∀ r ∈ (importedBy opts imports upstream db).1.packages, Mine opts r → r.name = p.name →
          r.sha256 ∉ (selected opts imports upstream db).add := by
        intro r rInTable rMine rName pinned
        refine free r rInTable ((adds_iff well plain).mpr ⟨rMine.2, pinned⟩) ?_
        unfold Package.slot
        rw [rMine.1, rMine.2, rName, isName, mine.1, mine.2]
      by_cases collides : p.filename ∈ (classified opts upstream db).collisions.map (·.1)
      · obtain ⟨p', kept', isFile, collision'⟩ := mem_colliding.mp collides
        obtain ⟨sha, isSha⟩ := Option.isSome_iff_exists.mp collision'
        obtain ⟨r, stored, rSha⟩ := byFilename_some (collision_some.mp isSha).1
        obtain ⟨rInTable, rMine, rFile⟩ := mem_storedRows stored
        refine unpinned r (grown.old r rInTable) rMine
          (agrees.byFile p (mem_keptOf_sub isKept) r rInTable rMine (rFile.trans isFile)) ?_
        rw [rSha, mem_add well plain]
        exact .inr ⟨p', kept', isSha⟩
      by_cases known : indexed (importedBy opts imports upstream db).1 p.sha256 opts.arch = true
      · obtain ⟨r, rInTable, rSha, rArch⟩ := indexed_iff.mp known
        obtain ⟨rSource, rName, -⟩ :=
          (agrees_importedBy well plain agrees).byHash p (mem_keptOf_sub isKept) r rInTable rSha rArch
        refine unpinned r rInTable ⟨rSource, rArch⟩ rName ?_
        rw [rSha, mem_add well plain]
        exact .inl ⟨p, isKept, rfl, collides, known⟩
      · rw [indexed_importedBy well plain] at known
        push Not at known
        have missing := mem_missing.mpr ⟨isKept, Bool.eq_false_of_not_eq_true known.1, collides⟩
        have failed : (imports p).toOption.isNone = true := by
          rw [Option.isNone_iff_eq_none, ← Option.not_isSome_iff_eq_none]
          exact fun got => known.2 p (mem_done.mpr ⟨all.symm ▸ missing, got⟩) rfl
        exact served p (List.mem_filter.mpr ⟨all.symm ▸ missing, failed⟩) q inOld mine isName.symm
  · have pinnedThen := same_add.mp pinned
    obtain ⟨r, inTable, rfl, isArch⟩ := add_indexed well plain pinnedThen
    have adds := (@adds_iff opts imports upstream db well plain note r).mpr ⟨isArch, pinnedThen⟩
    exact ⟨r, (step.rows r).mpr ⟨inTable, .inl adds⟩, (adds_named well plain agrees inTable adds).1, rfl⟩

omit self well₁ index others in
/-- Imports that leave the selection served leave it served. -/
theorem settled_imports (self : opts.source ∉ opts.deferTo)
    (unchanged : (selected opts imports upstream db).unchanged = true) :
    (selected opts imports upstream (importedBy opts imports upstream db).1).unchanged = true := by
  have grown := @grown_importedBy opts imports upstream db well plain
  have rows : ∀ q, q ∈ (importedBy opts imports upstream db).1.ringRows opts.ring ↔ q ∈ db.ringRows opts.ring :=
    fun q => ringRows_importedBy well plain
  have same_add := @add_again opts imports upstream db well plain agrees self _ grown.well rfl (fun q _ => rows q) all
  obtain ⟨mine_add, add_mine⟩ := (unchanged_iff well).mp unchanged
  rw [unchanged_iff grown.well]
  refine ⟨fun q inRing mine => ?_, fun sha pinned => ?_⟩
  · obtain ⟨kept, pinned⟩ := mine_add q ((rows q).mp inRing) mine
    obtain ⟨p, isKept, isName⟩ := List.mem_map.mp kept
    have again := (kept_again well self grown.well fun q _ => rows q).mpr isKept
    exact ⟨List.mem_map.mpr ⟨p, again, isName⟩, same_add.mpr pinned⟩
  · obtain ⟨q, inRing, isRow⟩ := add_mine sha (same_add.mp pinned)
    exact ⟨q, (rows q).mpr inRing, isRow⟩

end Again

end Rows

theorem all_of_deferred {missing : List UpstreamPackage}
    (none_ : missing.length - (withinLimit opts missing).length = 0) : withinLimit opts missing = missing := by
  unfold withinLimit at none_ ⊢
  split at none_
  · rename_i cut
    rw [List.length_take] at none_
    omega
  · rename_i whole
    rw [if_neg whole]

/-- A run that would change nothing leaves the index as it is. -/
theorem run_still {w : World} (well : w.db.WellIndexed) (plain : ∀ p ∈ upstream, '/' ∉ p.sha256.toList)
    (none_ : opts.dryRun = true ∨ (importedBy opts imports upstream w.db).1 = w.db ∧
      ((selected opts imports upstream w.db).unchanged = true ∨ opts.deferRelease = true)) :
    ∃ report, (run opts imports upstream w).1 = .ok report ∧ report.release = none ∧
      (run opts imports upstream w).2.db = w.db := by
  obtain ⟨report, answered, -, -, outcome⟩ := @run_outcome opts imports upstream w well plain
  refine ⟨report, answered, ?_⟩
  generalize report.release = release at outcome
  generalize isAfter : (run opts imports upstream w).2.db = after at outcome
  cases outcome with
  | dry _ => exact ⟨rfl, rfl⟩
  | imported wet _ =>
      rcases none_ with dry | ⟨same, -⟩
      · rw [wet] at dry
        cases dry
      · exact ⟨rfl, same⟩
  | released note wet changed now _ =>
      rcases none_ with dry | ⟨-, unchanged | deferred⟩
      · rw [wet] at dry
        cases dry
      · rw [changed] at unchanged
        cases unchanged
      · rw [now] at deferred
        cases deferred

theorem again {w w₁ : World} (well : w.db.WellIndexed) (plain : ∀ p ∈ upstream, '/' ∉ p.sha256.toList)
    (self : opts.source ∉ opts.deferTo) (agrees : Agrees opts imports upstream w.db)
    {release : Option (ReleaseId × Nat)} (outcome : Outcome opts imports upstream w.db release w₁.db)
    (all : withinLimit opts (classified opts upstream w.db).missing = (classified opts upstream w.db).missing)
    (served : ∀ p ∈ failing opts imports upstream w.db, ∀ q ∈ w.db.ringRows opts.ring, Mine opts q → q.name ≠ p.name) :
    ∃ report, (run opts imports upstream w₁).1 = .ok report ∧ report.release = none ∧
      (run opts imports upstream w₁).2.db = w₁.db := by
  have grown := @grown_importedBy opts imports upstream w.db well plain
  have others := fun q other => @others_stay opts imports upstream w.db well plain agrees release w₁.db outcome q other
  generalize isAfter : w₁.db = db₁ at outcome others
  cases outcome with
  | dry dry => exact isAfter ▸ run_still (isAfter.symm ▸ well) plain (.inl dry)
  | imported wet reason =>
      have well₁ : w₁.db.WellIndexed := isAfter.symm ▸ grown.well
      rw [← isAfter] at others
      have same := importedBy_again well plain agrees self well₁ (by rw [isAfter]) others all
      rw [← isAfter]
      refine run_still well₁ plain (.inr ⟨same, ?_⟩)
      rcases reason with unchanged | deferred
      · rw [isAfter]
        exact .inl (settled_imports well plain agrees all self unchanged)
      · exact .inr deferred
  | released note wet changed now step =>
      have well₁ : w₁.db.WellIndexed := isAfter.symm ▸ step.well
      rw [← isAfter] at others step
      have same := importedBy_again well plain agrees self well₁ step.packages others all
      rw [← isAfter]
      exact run_still well₁ plain (.inr ⟨same,
        .inl (settled_release well plain agrees self well₁ step.packages others all step served)⟩)

/-- **A sync keeps the names upstream lists, and settles.** -/
theorem sync_settles {w : World} (well : w.db.WellIndexed) (plain : ∀ p ∈ upstream, '/' ∉ p.sha256.toList)
    (self : opts.source ∉ opts.deferTo) :
    ∃ report, (run opts imports upstream w).1 = .ok report ∧
      (∀ q ∈ w.db.ringRows opts.ring, Mine opts q → q.name ∈ upstream.map (·.name) →
        ∃ q' ∈ (run opts imports upstream w).2.db.ringRows opts.ring, q'.name = q.name ∧ q'.repoArch = opts.arch ∧
          (q'.source = opts.source ∨ q'.source ∈ opts.deferTo)) ∧
      (Agrees opts imports upstream w.db →
        (∀ c ∈ report.collisions, c.2 ∉ (selected opts imports upstream w.db).add) ∧
        (∀ q, ¬ Mine opts q →
          (q ∈ (run opts imports upstream w).2.db.ringRows opts.ring ↔ q ∈ w.db.ringRows opts.ring)) ∧
        (report.deferred = 0 →
          (∀ p ∈ failing opts imports upstream w.db, ∀ q ∈ w.db.ringRows opts.ring, Mine opts q → q.name ≠ p.name) →
          ∃ second, (run opts imports upstream (run opts imports upstream w).2).1 = .ok second ∧ second.release = none ∧
            (run opts imports upstream (run opts imports upstream w).2).2.db = (run opts imports upstream w).2.db)) := by
  obtain ⟨report, answered, collisions, deferred, outcome⟩ := @run_outcome opts imports upstream w well plain
  refine ⟨report, answered, fun q inRing mine listed => names_stay well plain self outcome inRing mine listed,
    fun agrees => ⟨fun c collides => ?_, fun q other => others_stay well plain agrees outcome other, fun none_ served => ?_⟩⟩
  · rw [collisions] at collides
    obtain ⟨p, isColliding, rfl⟩ := List.mem_map.mp collides
    obtain ⟨kept, collision_⟩ := List.mem_filter.mp isColliding
    exact collides_unpinned well plain agrees kept collision_
  · rw [deferred] at none_
    exact again well plain self agrees outcome (all_of_deferred none_) served

end Run

/-! ## Runs on one ring -/

/-- A pool whose `edge` serves some of its packages. -/
def servedWorld (packages : List Package) (ids : Finset PackageId) : World where
  db :=
    { packages
      releases := [⟨1, .edge, 1, none, none, none, true, none, none, none⟩]
      nextRelease := 2
      ringHeads := fun ring => if ring = .edge then some 1 else none
      ringPackages := fun ring => if ring = .edge then ids else ∅
      releaseDeltas := fun _ => .empty
      releasePackages := fun _ => ∅
      artifacts := []
      bucket := fun _ => none }
  selection := fun _ => ids

def upstreamOf (digit : Char) (name version : String) : UpstreamPackage where
  name := name
  version := version
  filename := name ++ "-" ++ version ++ "-x86_64.pkg.tar.zst"
  sha256 := Package.sampleHash digit
  sizeDownload := 1

def coreInto (limit : Nat) (deferTo : List String) : SyncOptions where
  source := "core"
  arch := .x86_64
  ring := .edge
  limit := limit
  dryRun := false
  deferTo := deferTo
  deferRelease := false

/-- Imports that fail for some names. -/
def importsBut (broken : List String) (p : UpstreamPackage) : Except String Manifest :=
  if broken.contains p.name then .error "bad signature" else .ok ⟨p.name, p.version⟩

def makesRelease (opts : SyncOptions) (broken : List String) (upstream : List UpstreamPackage) (w : World) : Bool :=
  match (run opts (importsBut broken) upstream w).1 with
  | .ok report => report.release.isSome
  | .error _ => false

def poolAfter (opts : SyncOptions) (broken : List String) (upstream : List UpstreamPackage) (w : World) : World :=
  (run opts (importsBut broken) upstream w).2

def rebuilt : List UpstreamPackage := [upstreamOf 'b' "glibc" "2.0-1", upstreamOf 'c' "zlib" "1.3-1"]

def glibcAndGit : World := servedWorld [.sample 1 'a' "core" "glibc", .sample 2 'd' "extra" "git"] {1, 2}

/-- The rebuilt package is pinned, the one whose import fails waits, and the second run leaves the pool alone. -/
theorem sync_settles_upgrade :
    ∃ second, (run (coreInto 0 ["opr"]) (importsBut ["zlib"]) rebuilt
        (poolAfter (coreInto 0 ["opr"]) ["zlib"] rebuilt glibcAndGit)).1 = .ok second ∧ second.release = none ∧
      ∃ q ∈ (poolAfter (coreInto 0 ["opr"]) ["zlib"] rebuilt glibcAndGit).db.ringRows .edge, q.name = "glibc" := by
  have well : glibcAndGit.db.WellIndexed :=
    { ordered :=
        { ids := by decide
          fresh := by decide
          seqs := by intro ring; cases ring <;> decide
          heads := by intro ring; cases ring <;> decide }
      distinct := by decide
      oneRow := by decide
      plain := by decide
      idle := by intro ring; cases ring <;> decide
      listed := by intro ring; cases ring <;> decide }
  have plain : ∀ p ∈ rebuilt, '/' ∉ p.sha256.toList := by decide
  have agrees : Agrees (coreInto 0 ["opr"]) (importsBut ["zlib"]) rebuilt glibcAndGit.db :=
    { shas := by decide
      filenames := by decide
      byHash := by decide
      byFile := by decide
      manifest := by
        intro p _ m got
        unfold importsBut at got
        split at got
        · cases got
        · cases got
          rfl }
  obtain ⟨report, answered, names, rest⟩ := @sync_settles (coreInto 0 ["opr"]) (importsBut ["zlib"]) rebuilt glibcAndGit
    well plain (by decide)
  obtain ⟨-, -, settles⟩ := rest agrees
  have none_ : report.deferred = 0 := by
    have counted : ((run (coreInto 0 ["opr"]) (importsBut ["zlib"]) rebuilt glibcAndGit).1.toOption.map (·.deferred)) = some 0 := by
      decide
    rw [answered] at counted
    exact Option.some.inj counted
  obtain ⟨second, ran, quiet, -⟩ := settles none_ (by decide)
  obtain ⟨q, serves, isName, -⟩ := names (.sample 1 'a' "core" "glibc") (by decide) (by decide)
    (by decide)
  exact ⟨second, ran, quiet, q, serves, isName⟩

/-- A pool that serves `git` from another source, in the newer of two versions. -/
def gitElsewhere : World :=
  servedWorld [.sample 1 'a' "extra" "git" "2.0-1", .sample 2 'b' "extra" "git" "3.0-1"] {2}

def glibcOnly : World := servedWorld [.sample 1 'a' "core" "glibc"] {1}

/-- Where a limit defers a package the second run imports it and makes another release; where the upgrade of a served
name fails every run makes one; a hash indexed for another source moves that source's row; and a source that gives
way to itself loses its names. -/
theorem sync_goes_on :
    makesRelease (coreInto 1 []) [] [upstreamOf 'b' "bash" "5.3-1", upstreamOf 'c' "zlib" "1.3-1"]
        (poolAfter (coreInto 1 []) [] [upstreamOf 'b' "bash" "5.3-1", upstreamOf 'c' "zlib" "1.3-1"] glibcOnly) = true ∧
      makesRelease (coreInto 0 []) ["glibc"] [upstreamOf 'b' "glibc" "2.0-1"]
        (poolAfter (coreInto 0 []) ["glibc"] [upstreamOf 'b' "glibc" "2.0-1"] glibcOnly) = true ∧
      gitElsewhere.db.ringPackages .edge = {2} ∧
      (poolAfter (coreInto 0 []) [] [upstreamOf 'a' "git" "2.0-1"] gitElsewhere).db.ringPackages .edge = {1} ∧
      glibcOnly.db.ringPackages .edge = {1} ∧
      (poolAfter (coreInto 0 ["core"]) [] [upstreamOf 'a' "glibc" "1.0-1"] glibcOnly).db.ringPackages .edge = ∅ := by
  have limited : makesRelease (coreInto 1 []) [] [upstreamOf 'b' "bash" "5.3-1", upstreamOf 'c' "zlib" "1.3-1"]
      (poolAfter (coreInto 1 []) [] [upstreamOf 'b' "bash" "5.3-1", upstreamOf 'c' "zlib" "1.3-1"] glibcOnly) = true := by
    decide
  have failing_ : makesRelease (coreInto 0 []) ["glibc"] [upstreamOf 'b' "glibc" "2.0-1"]
      (poolAfter (coreInto 0 []) ["glibc"] [upstreamOf 'b' "glibc" "2.0-1"] glibcOnly) = true := by decide
  have moved : (poolAfter (coreInto 0 []) [] [upstreamOf 'a' "git" "2.0-1"] gitElsewhere).db.ringPackages .edge = {1} := by
    decide
  have lost : (poolAfter (coreInto 0 ["core"]) [] [upstreamOf 'a' "glibc" "1.0-1"] glibcOnly).db.ringPackages .edge = ∅ := by
    decide
  exact ⟨limited, failing_, rfl, moved, rfl, lost⟩

end OmarchyPool.Sync
