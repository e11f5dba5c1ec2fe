/-
# OmarchyPool.Security.Lands -- when a fast-track fixes what it says

Three keys stand for one package here: the view groups by name and keeps the version of the first row, the object is
looked up by name, architecture and version, and the release replaces within a source, a name and an architecture.

A fix lands where they meet: the rows of the vulnerable version have the source of the object taken, and none in the
object's slot is newer than it (`OneSource`).  Otherwise the vulnerable row stays beside the clean one, or a newer row
of another source gives way to it; `fast_track_lands_iff` says that nothing else goes wrong.
-/
import OmarchyPool.Manifest.VersionOrder
import OmarchyPool.Security.FastTrack

namespace OmarchyPool.Security

open OmarchyPool.Lib OmarchyPool.Manifest

set_option autoImplicit false

/-! ## What a fast-track says -/

/-- The ring after the release, beside what it was and the fixes reported. -/
structure Lands (before after : List Package) (fixes : List Fix) : Prop where
  gone : ∀ fix ∈ fixes, ∀ q ∈ after, q.name = fix.name → q.repoArch = fix.arch → q.version ≠ fix.vulnerable
  there : ∀ fix ∈ fixes, ∃ q ∈ after, q.name = fix.name ∧ q.repoArch = fix.arch ∧ q.version = fix.clean
  newer : ∀ q ∈ before, q ∉ after → ∀ q' ∈ after, q'.slot = q.slot → compareVersions q'.version q.version ≠ .lt
  others : ∀ q, (∀ fix ∈ fixes, ¬ (q.name = fix.name ∧ q.repoArch = fix.arch)) → (q ∈ after ↔ q ∈ before)

/-- The objects taken are of the sources of what they are to replace, and not older than it. -/
structure OneSource (before : List Package) (taken : List Taken) : Prop where
  source : ∀ t ∈ taken, ∀ q ∈ before, q.name = t.fix.name → q.repoArch = t.fix.arch → q.version = t.fix.vulnerable →
    q.source = t.object.source
  newer : ∀ t ∈ taken, ∀ q ∈ before, q.slot = t.object.slot → compareVersions t.object.version q.version ≠ .lt

/-! ## What is taken -/

section Taken

variable {plan : Planner} {s : SecurityDb} {db : Db} {opts : FastTrackOptions}

theorem grouped_name {rows : List Exposed} {name : String} {v : Grouped} (found : grouped rows name = some v) :
    v.name = name := by
  obtain ⟨first, -, rfl⟩ := Option.map_eq_some_iff.mp found
  rfl

/-- An entry of the view is the one its name gives. -/
theorem view_unique {ring : Ring} {arch : Arch} {v v' : SecurityRow} (listed : v ∈ handleSecurity plan s db ring arch)
    (listed' : v' ∈ handleSecurity plan s db ring arch) (same : v.name = v'.name) : v = v' := by
  unfold handleSecurity at listed listed'
  split at listed
  · cases listed
  · rename_i head
    rw [head] at listed'
    obtain ⟨g, isGrouped, rfl⟩ := List.mem_map.mp listed
    obtain ⟨g', isGrouped', rfl⟩ := List.mem_map.mp listed'
    obtain ⟨name, -, found⟩ := List.mem_filterMap.mp isGrouped
    obtain ⟨name', -, found'⟩ := List.mem_filterMap.mp isGrouped'
    have names : name = name' := (grouped_name found).symm.trans (same.trans (grouped_name found'))
    subst names
    rw [found] at found'
    cases found'
    rfl

theorem candidate_name {v : SecurityRow} {c : String × String × String} (isCandidate : candidate opts v = some c) :
    c.1 = v.name ∧ c.2.1 = v.version ∧ compareVersions c.2.2 c.2.1 = .gt := by
  unfold candidate at isCandidate
  split at isCandidate
  · obtain ⟨clean, -, newer⟩ := Option.bind_eq_some_iff.mp isCandidate
    split at newer
    · rename_i isNewer
      cases newer
      exact ⟨rfl, rfl, isNewer⟩
    · cases newer
  · cases isCandidate

/-- What a row was taken by: an entry of the view, and the first row of the other ring that answers to it. -/
theorem mem_takenOf {arch : Arch} {t : Taken} : t ∈ takenOf plan s db opts arch ↔
    ∃ summary, Sync.releaseSummaryOf db opts.fromRing = some summary ∧
      ∃ v ∈ handleSecurity plan s db opts.ring arch, ∃ c, candidate opts v = some c ∧ objectOf summary arch c = some t := by
  unfold takenOf fastTrackCandidates
  cases Sync.releaseSummaryOf db opts.fromRing with
  | none => simp
  | some summary =>
      simp only [List.mem_filterMap, Option.some.injEq, exists_eq_left']
      constructor
      · rintro ⟨c, ⟨v, listed, isCandidate⟩, found⟩
        exact ⟨v, listed, c, isCandidate, found⟩
      · rintro ⟨v, listed, c, isCandidate, found⟩
        exact ⟨c, ⟨v, listed, isCandidate⟩, found⟩

theorem objectOf_some {summary : List Package} {arch : Arch} {c : String × String × String} {t : Taken}
    (found : objectOf summary arch c = some t) : t.object ∈ summary ∧ t.fix = ⟨c.1, arch, c.2.1, c.2.2⟩ ∧
      t.object.name = c.1 ∧ t.object.repoArch = arch ∧ t.object.version = c.2.2 := by
  obtain ⟨object, first, rfl⟩ := Option.map_eq_some_iff.mp found
  have answers := List.find?_some first
  simp only [Bool.and_eq_true, beq_iff_eq] at answers
  exact ⟨List.mem_of_find?_eq_some first, rfl, answers.1.1, answers.1.2, answers.2⟩

/-- The object of a fix is an indexed row of its name, architecture and clean version, which is newer. -/
structure Brings (db : Db) (t : Taken) : Prop where
  indexed : t.object ∈ db.packages
  name : t.object.name = t.fix.name
  arch : t.object.repoArch = t.fix.arch
  version : t.object.version = t.fix.clean
  newer : compareVersions t.fix.clean t.fix.vulnerable = .gt

theorem mem_taken {t : Taken} : t ∈ taken plan s db opts ↔ t ∈ takenOf plan s db opts t.fix.arch := by
  unfold taken
  rw [List.mem_flatMap]
  constructor
  · rintro ⟨arch, -, inArch⟩
    obtain ⟨summary, -, v, -, c, -, found⟩ := mem_takenOf.mp inArch
    have isArch : t.fix.arch = arch := by rw [(objectOf_some found).2.1]
    rwa [isArch]
  · intro inArch
    refine ⟨t.fix.arch, ?_, inArch⟩
    cases t.fix.arch <;> decide

theorem taken_brings {t : Taken} (isTaken : t ∈ taken plan s db opts) : Brings db t := by
  obtain ⟨summary, isSummary, v, -, c, isCandidate, found⟩ := mem_takenOf.mp (mem_taken.mp isTaken)
  obtain ⟨inSummary, isFix, name, arch, version⟩ := objectOf_some found
  obtain ⟨head, -, rfl⟩ := Option.map_eq_some_iff.mp isSummary
  refine ⟨((Db.mem_rowsInOrder _ _ _ _).mp inSummary).1, ?_, ?_, ?_, ?_⟩
  · rw [name, isFix]
  · rw [arch]
  · rw [version, isFix]
  · rw [isFix]
    exact (candidate_name isCandidate).2.2

/-- One fix for a name and architecture. -/
theorem taken_unique {t t' : Taken} (isTaken : t ∈ taken plan s db opts) (isTaken' : t' ∈ taken plan s db opts)
    (name : t.fix.name = t'.fix.name) (arch : t.fix.arch = t'.fix.arch) : t = t' := by
  obtain ⟨summary, isSummary, v, listed, c, isCandidate, found⟩ := mem_takenOf.mp (mem_taken.mp isTaken)
  obtain ⟨summary', isSummary', v', listed', c', isCandidate', found'⟩ := mem_takenOf.mp (mem_taken.mp isTaken')
  rw [isSummary] at isSummary'
  cases isSummary'
  have ofV : t.fix.name = v.name := by rw [(objectOf_some found).2.1, ← (candidate_name isCandidate).1]
  have ofV' : t'.fix.name = v'.name := by rw [(objectOf_some found').2.1, ← (candidate_name isCandidate').1]
  rw [← arch] at listed' found'
  have same : v = v' := view_unique listed listed' (ofV.symm.trans (name.trans ofV'))
  subst same
  rw [isCandidate] at isCandidate'
  cases isCandidate'
  rw [found] at found'
  exact Option.some.inj found'

end Taken

/-! ## What the release makes of the ring -/

theorem compareVersions_self (version : String) : compareVersions version version = .eq := by
  have swapped := vercmp_swap (bytesOf version) (bytesOf version)
  unfold compareVersions
  cases verdict : vercmp (bytesOf version) (bytesOf version) <;> rw [verdict] at swapped <;> cases swapped

section Release

variable {plan : Planner} {s : SecurityDb} {opts : FastTrackOptions} {db db' : Db}

/-- The rows added are the objects. -/
theorem adds_object (well : db.WellIndexed) {p : Package} (inTable : p ∈ db.packages) :
    (fixRequest opts (taken plan s db opts)).Adds none p ↔ ∃ t ∈ taken plan s db opts, t.object = p := by
  have entry : ∀ t ∈ taken plan s db opts, Wanted.ofEntry (t.object.sha256 ++ "/" ++ t.fix.arch.name) =
      ⟨t.object.sha256 ++ "/" ++ t.fix.arch.name, t.object.sha256, some t.fix.arch.name⟩ :=
    fun t isTaken => ofEntry_ofArch (well.plain _ (taken_brings isTaken).indexed) t.fix.arch
  unfold CreateRelease.Adds fixRequest
  dsimp only
  constructor
  · rintro ⟨-, _, listed, isSha, isArch⟩
    obtain ⟨t, isTaken, rfl⟩ := List.mem_map.mp listed
    rw [entry t isTaken] at isSha isArch
    have brings := taken_brings isTaken
    have arch : t.object.repoArch = p.repoArch := by
      rw [brings.arch]
      exact Arch.name_injective (by simpa using isArch)
    exact ⟨t, isTaken, well.oneRow _ brings.indexed p inTable isSha arch⟩
  · rintro ⟨t, isTaken, rfl⟩
    refine ⟨rfl, _, List.mem_map_of_mem isTaken, ?_, ?_⟩ <;> rw [entry t isTaken]
    rw [(taken_brings isTaken).arch]
    simp

/-- **The ring after a fast-track**: the objects, and the rows in no object's slot. -/
theorem mem_tracked (well : db.WellIndexed)
    (step : OwnRelease (fixRequest opts (taken plan s db opts)) opts.ring none db db') {p : Package} :
    p ∈ db'.ringRows opts.ring ↔ (∃ t ∈ taken plan s db opts, t.object = p) ∨
      (p ∈ db.ringRows opts.ring ∧ ∀ t ∈ taken plan s db opts, t.object.slot ≠ p.slot) := by
  have nothing : ¬ (fixRequest opts (taken plan s db opts)).Removes none p := by
    rintro ⟨named | named, -⟩ <;> cases named
  rw [step.rows]
  constructor
  · rintro ⟨inTable, adds | ⟨inRing, -, free⟩⟩
    · exact .inl ((adds_object well inTable).mp adds)
    · refine .inr ⟨inRing, fun t isTaken => ?_⟩
      have indexed := (taken_brings isTaken).indexed
      exact free t.object indexed ((adds_object well indexed).mpr ⟨t, isTaken, rfl⟩)
  · rintro (⟨t, isTaken, rfl⟩ | ⟨inRing, free⟩)
    · have indexed := (taken_brings isTaken).indexed
      exact ⟨indexed, .inl ((adds_object well indexed).mpr ⟨t, isTaken, rfl⟩)⟩
    · refine ⟨(mem_ringRows.mp inRing).1, .inr ⟨inRing, nothing, fun q inTable adds => ?_⟩⟩
      obtain ⟨t, isTaken, rfl⟩ := (adds_object well inTable).mp adds
      exact free t isTaken

variable (after : ∀ p, p ∈ db'.ringRows opts.ring ↔ (∃ t ∈ taken plan s db opts, t.object = p) ∨
  (p ∈ db.ringRows opts.ring ∧ ∀ t ∈ taken plan s db opts, t.object.slot ≠ p.slot))
include after

theorem lands_of_oneSource (one : OneSource (db.ringRows opts.ring) (taken plan s db opts)) :
    Lands (db.ringRows opts.ring) (db'.ringRows opts.ring) ((taken plan s db opts).map (·.fix)) where
  gone := by
    intro fix reported q serves name arch vulnerable
    obtain ⟨t, isTaken, rfl⟩ := List.mem_map.mp reported
    have brings := taken_brings isTaken
    rcases (after q).mp serves with ⟨t', isTaken', rfl⟩ | ⟨inRing, free⟩
    · have brings' := taken_brings isTaken'
      have same : t' = t :=
        taken_unique isTaken' isTaken (brings'.name.symm.trans name) (brings'.arch.symm.trans arch)
      subst same
      have newer := brings.newer
      rw [← brings.version, vulnerable, compareVersions_self] at newer
      cases newer
    · refine free t isTaken ?_
      unfold Package.slot
      rw [brings.name, brings.arch, ← one.source t isTaken q inRing name arch vulnerable, name, arch]
  there := by
    intro fix reported
    obtain ⟨t, isTaken, rfl⟩ := List.mem_map.mp reported
    have brings := taken_brings isTaken
    exact ⟨t.object, (after _).mpr (.inl ⟨t, isTaken, rfl⟩), brings.name, brings.arch, brings.version⟩
  newer := by
    intro q inRing dropped q' serves same
    rcases (after q').mp serves with ⟨t, isTaken, rfl⟩ | ⟨-, free⟩
    · exact one.newer t isTaken q inRing same.symm
    · exact absurd ((after q).mpr (.inr ⟨inRing, fun t isTaken => same ▸ free t isTaken⟩)) dropped
  others := by
    intro q apart
    have slots : ∀ t ∈ taken plan s db opts, t.object.slot ≠ q.slot := by
      intro t isTaken same
      have brings := taken_brings isTaken
      simp only [Package.slot, Prod.mk.injEq] at same
      exact apart t.fix (List.mem_map_of_mem isTaken)
        ⟨same.2.1.symm.trans brings.name, same.2.2.symm.trans brings.arch⟩
    rw [after q]
    constructor
    · rintro (⟨t, isTaken, rfl⟩ | ⟨inRing, -⟩)
      · exact absurd rfl (slots t isTaken)
      · exact inRing
    · exact fun inRing => .inr ⟨inRing, slots⟩

theorem oneSource_of_lands
    (lands : Lands (db.ringRows opts.ring) (db'.ringRows opts.ring) ((taken plan s db opts).map (·.fix))) :
    OneSource (db.ringRows opts.ring) (taken plan s db opts) where
  source := by
    intro t isTaken q inRing name arch vulnerable
    have dropped : q ∉ db'.ringRows opts.ring := fun serves =>
      lands.gone t.fix (List.mem_map_of_mem isTaken) q serves name arch vulnerable
    -- a row of the ring that is not served after it was in the slot of an object, which is this fix's
    have replaced : ∃ t' ∈ taken plan s db opts, t'.object.slot = q.slot := by
      by_contra free
      push Not at free
      exact dropped ((after q).mpr (.inr ⟨inRing, free⟩))
    obtain ⟨t', isTaken', same⟩ := replaced
    have brings' := taken_brings isTaken'
    simp only [Package.slot, Prod.mk.injEq] at same
    have isFix : t' = t := taken_unique isTaken' isTaken (brings'.name.symm.trans (same.2.1.trans name))
      (brings'.arch.symm.trans (same.2.2.trans arch))
    rw [← isFix]
    exact same.1.symm
  newer := by
    intro t isTaken q inRing same older
    have serves : t.object ∈ db'.ringRows opts.ring := (after _).mpr (.inl ⟨t, isTaken, rfl⟩)
    by_cases kept : q ∈ db'.ringRows opts.ring
    · rcases (after q).mp kept with ⟨t', isTaken', rfl⟩ | ⟨-, free⟩
      · have brings := taken_brings isTaken
        have brings' := taken_brings isTaken'
        simp only [Package.slot, Prod.mk.injEq] at same
        have isFix : t' = t := taken_unique isTaken' isTaken
          (brings'.name.symm.trans (same.2.1.trans brings.name)) (brings'.arch.symm.trans (same.2.2.trans brings.arch))
        rw [isFix, compareVersions_self] at older
        cases older
      · exact free t isTaken same.symm
    · exact lands.newer q inRing kept t.object serves same.symm older

end Release

/-- **A fast-track answers, and fixes what it says exactly when its objects are of the sources of what they are to
replace and not older than it.** -/
theorem fast_track_lands_iff (plan : Planner) (s : SecurityDb) (opts : FastTrackOptions) {w : World} (well : w.db.WellIndexed)
    (live : opts.dryRun = false) :
    ∃ report, (fastTrack plan s opts w).1 = .ok report ∧
      (Lands (w.db.ringRows opts.ring) ((fastTrack plan s opts w).2.db.ringRows opts.ring) report.fixes ↔
        OneSource (w.db.ringRows opts.ring) (taken plan s w.db opts)) := by
  have landsIff : ∀ {db' : Db}, (∀ p, p ∈ db'.ringRows opts.ring ↔ (∃ t ∈ taken plan s w.db opts, t.object = p) ∨
      (p ∈ w.db.ringRows opts.ring ∧ ∀ t ∈ taken plan s w.db opts, t.object.slot ≠ p.slot)) →
      (Lands (w.db.ringRows opts.ring) (db'.ringRows opts.ring) ((taken plan s w.db opts).map (·.fix)) ↔
        OneSource (w.db.ringRows opts.ring) (taken plan s w.db opts)) :=
    fun after => ⟨oneSource_of_lands after, lands_of_oneSource after⟩
  unfold fastTrack
  dsimp only
  split
  · rename_i empty
    have none_ : taken plan s w.db opts = [] := List.map_eq_nil_iff.mp (List.isEmpty_iff.mp empty)
    refine ⟨_, rfl, landsIff fun p => ?_⟩
    simp [none_]
  · rw [if_neg (by rw [live]; exact Bool.false_ne_true)]
    have own : OwnRequest (fixRequest opts (taken plan s w.db opts)) opts.ring none :=
      ⟨isRing_name opts.ring, rfl, rfl, rfl, rfl⟩
    have indexed : w.db.AllIndexed (fixRequest opts (taken plan s w.db opts)).add none := by
      rw [allIndexed_iff]
      intro entry listed
      obtain ⟨t, isTaken, rfl⟩ := List.mem_map.mp listed
      have brings := taken_brings isTaken
      rw [ofEntry_ofArch (well.plain _ brings.indexed)]
      refine ⟨t.object, brings.indexed, rfl, rfl, ?_⟩
      rw [brings.arch]
      simp
    obtain ⟨created, answered, step⟩ := ownRelease well own indexed
    have ran : (handleCreateRelease (fixRequest opts (taken plan s w.db opts))).run w =
        (.ok created, ((handleCreateRelease (fixRequest opts (taken plan s w.db opts))).run w).2) := Prod.ext answered rfl
    rw [ran]
    exact ⟨_, rfl, landsIff fun p => mem_tracked well step⟩

/-! ## Fast-tracks into one ring -/

/-- A pool whose `stable` and `edge` serve some of its packages. -/
def stableAndEdge (packages : List Package) (stable edge : Finset PackageId) : World where
  db :=
    { packages
      releases := [⟨1, .edge, 1, none, none, none, true, none, none, none⟩,
        ⟨2, .stable, 1, none, none, none, true, none, none, none⟩]
      nextRelease := 3
      ringHeads := fun ring => match ring with
        | .edge => some 1
        | .stable => some 2
        | _ => none
      ringPackages := fun ring => match ring with
        | .edge => edge
        | .stable => stable
        | _ => ∅
      releaseDeltas := fun _ => .empty
      releasePackages := fun _ => ∅
      artifacts := []
      bucket := fun _ => none }
  selection := fun id => if id = 1 then edge else stable

/-- One advisory of high severity, exact for the package with id 1. -/
def oneAdvisory : SecurityDb where
  advisories := [⟨"AVG-1", ["CVE-2026-1"], .high⟩]
  cveMeta := []
  packageAdvisories := [⟨1, "AVG-1", .exact, .vulnerable⟩]
  packageComponents := []

def intoStable : FastTrackOptions where
  ring := .stable
  fromRing := .edge
  minSeverity := .high
  dryRun := false

def vimRebuilt : World :=
  stableAndEdge [.sample 1 'a' "core" "vim" "9.0-1", .sample 2 'b' "core" "vim" "9.1-1"] {1} {2}

/-- The clean version of the same source takes the vulnerable one's place. -/
theorem fast_track_lands_vim :
    ∃ report, (fastTrack .table oneAdvisory intoStable vimRebuilt).1 = .ok report ∧
      Lands (vimRebuilt.db.ringRows .stable) ((fastTrack .table oneAdvisory intoStable vimRebuilt).2.db.ringRows .stable)
        report.fixes := by
  have well : vimRebuilt.db.WellIndexed :=
    { ordered :=
        { ids := by decide
          fresh := by decide
          seqs := by intro ring; cases ring <;> decide
          heads := by intro ring; cases ring <;> decide }
      distinct := by decide
      oneRow := by decide
      plain := by decide
      idle := by intro ring; cases ring <;> decide
      listed := by intro ring; cases ring <;> decide }
  obtain ⟨report, answered, lands⟩ := fast_track_lands_iff .table oneAdvisory intoStable well rfl
  exact ⟨report, answered, lands.mpr ⟨by decide +kernel, by decide +kernel⟩⟩

def vimMoved : World :=
  stableAndEdge [.sample 1 'a' "core" "vim" "9.0-1", .sample 2 'b' "extra" "vim" "9.1-1"] {1} {2}

def vimTwice : World :=
  stableAndEdge [.sample 1 'a' "core" "vim" "9.0-1", .sample 2 'b' "extra" "vim" "9.2-1",
    .sample 3 'c' "extra" "vim" "9.1-1"] {1, 2} {3}

def vimFix : Fix := ⟨"vim", .x86_64, "9.0-1", "9.1-1"⟩

/-- Where the clean version is another source's the vulnerable row stays beside it, and a newer row of that source
gives way to an older one. -/
theorem fast_track_misses :
    (fastTrack .table oneAdvisory intoStable vimMoved).1.toOption.map (·.fixes) = some [vimFix] ∧
      ¬ Lands (vimMoved.db.ringRows .stable) ((fastTrack .table oneAdvisory intoStable vimMoved).2.db.ringRows .stable) [vimFix] ∧
      vimTwice.db.ringPackages .stable = {1, 2} ∧
      (fastTrack .table oneAdvisory intoStable vimTwice).2.db.ringPackages .stable = {1, 3} ∧
      compareVersions "9.1-1" "9.2-1" = .lt := by
  have reported : (fastTrack .table oneAdvisory intoStable vimMoved).1.toOption.map (·.fixes) = some [vimFix] := by
    decide +kernel
  have stays : Package.sample 1 'a' "core" "vim" "9.0-1" ∈
      (fastTrack .table oneAdvisory intoStable vimMoved).2.db.ringRows .stable := by decide +kernel
  have older : (fastTrack .table oneAdvisory intoStable vimTwice).2.db.ringPackages .stable = {1, 3} := by decide +kernel
  have isOlder : compareVersions "9.1-1" "9.2-1" = .lt := by decide +kernel
  refine ⟨reported, fun lands => ?_, rfl, older, isOlder⟩
  exact lands.gone vimFix (List.mem_singleton_self _) _ stays rfl rfl rfl

end OmarchyPool.Security
