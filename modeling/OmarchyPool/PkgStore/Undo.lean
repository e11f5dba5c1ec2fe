/-
# OmarchyPool.PkgStore.Undo -- rolling back, and cleaning up

Any number of interrupted rollbacks keep the invariant of the application, and one that completes
puts every cell back.  A clean-up only takes away backups and empty directories, and one that
completes leaves the same wherever the ones before it stopped.
-/
import OmarchyPool.PkgStore.Apply

namespace OmarchyPool.PkgStore

open OmarchyPool.Lib

set_option autoImplicit false

section Running

variable {area : Loc} {was fs fs' : Files} {p : Plan} {taken : List Loc} {op : JournalEntry} {l : Loc}

/-! ## Rolling back -/

/-- The names of an operation are as they were. -/
def Restored (was fs : Files) (l : Loc) : Prop := fs.entry (draft l) = none ∧ Untouched was fs l

/-- A rollback step on one operation: it keeps the cell, touches no other, and spoils nothing that
was put back. -/
structure Undoes (was : Files) (l : Loc) (locs : List Loc) (fs fs' : Files) : Prop where
  only : Only l fs fs'
  cell : Cell was fs' l (l ∈ locs)
  keeps : Restored was fs l → Restored was fs' l

/-- The tree while those in `done` are rolled back. -/
def Undone (area : Loc) (was : Files) (p : Plan) (done : List JournalEntry) (fs : Files) : Prop :=
  Between area was p fs ∧
    ∀ op ∈ done, ∀ l, op ∈ p.ops → was.locate (components op.path) = some l → Restored was fs l

theorem Restored.congr (restored : Restored was fs l)
    (same : ∀ x, Within l x → fs'.entry x = fs.entry x) : Restored was fs' l := by
  obtain ⟨new, old, path⟩ := restored
  refine ⟨?_, ?_, ?_⟩
  · rw [same _ (within_draft l), new]
  · rw [same _ (within_backup l), old]
  · intro s
    rw [same _ (Or.inl (List.prefix_append l s)), path s]

theorem Undone.step (apart : Apart area was p) {done : List JournalEntry}
    (undone : Undone area was p done fs) (mem : l ∈ locations was p.ops)
    (undoes : Undoes was l (locations was p.ops) fs fs') : Undone area was p done fs' := by
  refine ⟨undone.1.step apart mem undoes.only undoes.cell fun _ mem => mem, ?_⟩
  intro op inDone l' inOps found
  have before := undone.2 op inDone l' inOps found
  by_cases same : l = l'
  · subst same
    exact undoes.keeps before
  · refine before.congr fun x inside => undoes.only x fun here => same ?_
    exact apart.unique mem (mem_locations inOps found) here inside

theorem discardNew_undoes {locs : List Loc} (cell : Cell was fs l (l ∈ locs)) (proper : l ≠ [])
    (goes : removeFileIfExists (sibling l newSuffix) fs = some fs') :
    Undoes was l locs fs fs' ∧ fs'.entry (draft l) = none := by
  have sets : Sets (draft l) none fs fs' := (removeFileIfExists_spec goes).2
  have names := three proper
  have new : fs'.entry (draft l) = none := by rw [sets, if_pos rfl]
  refine ⟨⟨sets.only_draft, (cell.sets_draft proper (by exact nofun) sets).1, ?_⟩, new⟩
  rintro ⟨-, old, path⟩
  refine ⟨new, ?_, ?_⟩
  · rw [sets, if_neg (backup_ne_draft proper), old]
  · intro s
    rw [sets, if_neg, path s]
    intro same
    exact names.draft_path s ⟨[], by rw [same, List.append_nil]⟩

/-- Emptying a path whose entry is aside, or where nothing stood. -/
theorem discard_undoes {locs : List Loc} (cell : Cell was fs l (l ∈ locs)) (proper : l ≠ [])
    (ready : Ready was fs l) (goes : removeEntryIfExists l fs = some fs') :
    Undoes was l locs fs fs' ∧ fs'.entry l = none ∧ fs'.entry (draft l) = fs.entry (draft l) ∧
      fs'.entry (backup l) = fs.entry (backup l) := by
  have leaf : fs.entry l ≠ some .dir := by
    rcases cell.state with untouched | fresh | ⟨moved, -⟩
    · rcases ready with nothing | aside
      · have same := untouched.2 []
        rw [List.append_nil, nothing] at same
        rw [same]
        exact nofun
      · exact aside.2.2
    · exact fresh.2.2
    · exact moved.2.2
  have sets := removeEntryIfExists_spec goes leaf
  have other : ∀ {y : Loc}, y ≠ l → fs'.entry y = fs.entry y := fun differ => by rw [sets, if_neg differ]
  obtain ⟨cell', emptied⟩ := cell.sets_path proper ready sets
  refine ⟨⟨sets.only_path, cell', ?_⟩, emptied, other (draft_ne proper), other (backup_ne proper)⟩
  rintro ⟨new, old, path⟩
  refine ⟨by rw [other (draft_ne proper), new], by rw [other (backup_ne proper), old], ?_⟩
  -- Where everything is put back nothing stood at the path, so emptying it changes nothing.
  have nothing : was.entry l = none := by
    rcases ready with nothing | aside
    · exact nothing
    · have kept := aside.2.1 []
      rw [List.append_nil, List.append_nil, old] at kept
      exact absurd kept.symm aside.1
  intro s
  rw [sets]
  split
  · rename_i same
    rw [same, nothing]
  · exact path s

theorem restored_of_emptied (nothing : was.entry l = none) (new : fs.entry (draft l) = none)
    (old : fs.entry (backup l) = none) (emptied : fs.entry l = none) : Restored was fs l := by
  refine ⟨new, old, ?_⟩
  intro s
  by_cases here : s = []
  · rw [here, List.append_nil, emptied, nothing]
  · rw [fs.nothing_inside (by rw [emptied]; exact nofun) s here,
      was.nothing_inside (by rw [nothing]; exact nofun) s here]

/-- What is known when an operation's path can be looked at. -/
def Undoing (area : Loc) (was : Files) (p : Plan) (done : List JournalEntry) (op : JournalEntry)
    (holds : Files → Loc → Prop) (fs : Files) : Prop :=
  Undone area was p done fs ∧ ∀ l, was.locate (components op.path) = some l → holds fs l

theorem Undoing.of_step (apart : Apart area was p) {done : List JournalEntry}
    {holds : Files → Loc → Prop} (undone : Undone area was p done fs) (mem : op ∈ p.ops)
    (found : was.locate (components op.path) = some l)
    (undoes : Undoes was l (locations was p.ops) fs fs') (after : holds fs' l) :
    Undoing area was p done op holds fs' := by
  refine ⟨undone.step apart (mem_locations mem found) undoes, ?_⟩
  intro l' found'
  rw [found] at found'
  cases found'
  exact after

theorem Undoing.done {done : List JournalEntry}
    (undoing : Undoing area was p done op (Restored was) fs) :
    Undone area was p (done ++ [op]) fs := by
  refine ⟨undoing.1.1, ?_⟩
  intro other inDone l mem found
  rcases List.mem_append.mp inDone with earlier | last
  · exact undoing.1.2 other earlier l mem found
  · cases List.mem_singleton.mp last
    exact undoing.2 l found

theorem discardNew_safe (apart : Apart area was p) {done : List JournalEntry} (mem : op ∈ p.ops)
    (undone : Undone area was p done fs) (goes : discardNew op.path fs = some fs') :
    Undoing area was p done op (fun fs l => fs.entry (draft l) = none) fs' := by
  obtain ⟨l, inLocs, found, removed⟩ := undone.1.onPath apart mem goes
  obtain ⟨undoes, new⟩ :=
    discardNew_undoes (undone.1.cells l inLocs) (proper_of_mem inLocs) removed
  exact .of_step apart undone mem found undoes new

theorem removeCreated_safe (setting : Setting area was p) {done : List JournalEntry}
    (mem : op ∈ p.ops) (creates : op.creates = true)
    (undoing : Undoing area was p done op (fun fs l => fs.entry (draft l) = none) fs)
    (goes : PkgStore.onPath op.path removeEntryIfExists fs = some fs') :
    Undone area was p (done ++ [op]) fs' := by
  obtain ⟨undone, new⟩ := undoing
  obtain ⟨l, inLocs, found, removed⟩ := undone.1.onPath setting.apart mem goes
  have nothing : was.entry l = none := (setting.creates op mem l found).mp creates
  have cell := undone.1.cells l inLocs
  obtain ⟨undoes, emptied, newKept, oldKept⟩ :=
    discard_undoes cell (proper_of_mem inLocs) (Or.inl nothing) removed
  have old : fs.entry (backup l) = none := by
    rcases cell.state with untouched | fresh | ⟨moved, -⟩
    · exact untouched.1
    · exact fresh.2.1
    · exact absurd nothing moved.1
  refine (Undoing.of_step setting.apart undone mem found undoes ?_).done
  exact restored_of_emptied nothing (newKept.trans (new l found)) (oldKept.trans old) emptied

theorem discardPlaced_safe (apart : Apart area was p) {done : List JournalEntry} (mem : op ∈ p.ops)
    (undoing : Undoing area was p done op (fun fs l => fs.entry (draft l) = none) fs)
    (goes : discardPlaced op.path fs = some fs') :
    Undoing area was p done op (fun fs l => fs.entry (draft l) = none) fs' := by
  obtain ⟨undone, new⟩ := undoing
  obtain ⟨l, inLocs, found, called⟩ := undone.1.onPath apart mem goes
  split at called
  · rename_i there
    have cell := undone.1.cells l inLocs
    have aside : Aside was fs l := by
      rcases cell.state with untouched | fresh | ⟨moved, -⟩
      · rw [show fs.entry (sibling l oldSuffix) = none from untouched.1] at there
        cases there
      · rw [show fs.entry (sibling l oldSuffix) = none from fresh.2.1] at there
        cases there
      · exact moved
    obtain ⟨undoes, -, newKept, -⟩ :=
      discard_undoes cell (proper_of_mem inLocs) (Or.inr aside) called
    exact .of_step apart undone mem found undoes (newKept.trans (new l found))
  · cases called
    exact ⟨undone, new⟩

theorem restoreBackup_safe (setting : Setting area was p) {done : List JournalEntry}
    (mem : op ∈ p.ops) (present : op.creates = false)
    (undoing : Undoing area was p done op (fun fs l => fs.entry (draft l) = none) fs)
    (goes : restoreBackup op.path fs = some fs') : Undone area was p (done ++ [op]) fs' := by
  obtain ⟨undone, new⟩ := undoing
  obtain ⟨l, inLocs, found, called⟩ := undone.1.onPath setting.apart mem goes
  have cell := undone.1.cells l inLocs
  split at called
  · rename_i there
    have held : fs.entry (backup l) ≠ none := Option.isSome_iff_ne_none.mp there
    obtain ⟨cell', untouched, newKept, only⟩ := cell.restores (proper_of_mem inLocs) held called
    have restored : Restored was fs' l := ⟨newKept.trans (new l found), untouched⟩
    exact (Undoing.of_step setting.apart undone mem found ⟨only, cell', fun _ => restored⟩
      restored).done
  · rename_i gone
    cases called
    refine Undoing.done ⟨undone, ?_⟩
    intro l' found'
    rw [found] at found'
    cases found'
    have old : fs.entry (backup l) = none := Option.not_isSome_iff_eq_none.mp gone
    refine ⟨new l found, ?_⟩
    rcases cell.state with untouched | fresh | ⟨moved, -⟩
    · exact untouched
    · rw [(setting.creates op mem l found).mpr fresh.1] at present
      cases present
    · have kept := moved.2.1 []
      rw [List.append_nil, List.append_nil, old] at kept
      exact absurd kept.symm moved.1

theorem rollbackOp_safe (setting : Setting area was p) (mem : op ∈ p.ops) (done : List JournalEntry) :
    CrashSafe (Undone area was p done) (rollbackOp op) (Between area was p)
      (Undone area was p (done ++ [op])) := by
  have apart := setting.apart
  cases op with
  | created path =>
      exact .cons (fun _ undone => undone.1)
        (fun fs fs' undone goes => discardNew_safe apart mem undone goes)
        (.cons (fun _ undoing => undoing.1.1)
          (fun fs fs' undoing goes => removeCreated_safe setting mem rfl undoing goes)
          (.nil (fun _ undone => undone.1) fun _ undone => undone))
  | replaced path | removed path =>
      exact .cons (fun _ undone => undone.1)
        (fun fs fs' undone goes => discardNew_safe apart mem undone goes)
        (.cons (fun _ undoing => undoing.1.1)
          (fun fs fs' undoing goes => discardPlaced_safe apart mem undoing goes)
          (.cons (fun _ undoing => undoing.1.1)
            (fun fs fs' undoing goes => restoreBackup_safe setting mem rfl undoing goes)
            (.nil (fun _ undone => undone.1) fun _ undone => undone)))

theorem rollbackSteps_safe (setting : Setting area was p) :
    CrashSafe (Between area was p) (rollbackSteps p.ops) (Between area was p)
      (Undone area was p p.ops.reverse) := by
  refine (@CrashSafe.flatMap _ _ _ _ (Undone area was p) p.ops.reverse
    (fun _ undone => undone.1) ?_).mono ?_ fun _ undone => undone
  · intro done op rest all
    have mem : op ∈ p.ops.reverse := all ▸ List.mem_append_right _ List.mem_cons_self
    exact rollbackOp_safe setting (List.mem_reverse.mp mem) done
  · exact fun fs between => ⟨between, fun _ none => by cases none⟩

/-- A rollback that completed left what was there. -/
theorem Undone.entries (setting : Setting area was p) (undone : Undone area was p p.ops.reverse fs) :
    entriesOutside area fs = entriesOutside area was := by
  funext x
  by_cases inArea : area <+: x
  · unfold entriesOutside
    rw [if_pos inArea, if_pos inArea]
  by_cases clear : ∀ l ∈ locations was p.ops, ¬ Within l x
  · exact undone.1.away x ⟨inArea, clear⟩
  · obtain ⟨l, mem, inside⟩ : ∃ l ∈ locations was p.ops, Within l x := by
      by_contra none
      exact clear fun l mem inside => none ⟨l, mem, inside⟩
    obtain ⟨op, inOps, found⟩ := List.mem_filterMap.mp mem
    obtain ⟨new, old, path⟩ := undone.2 op (List.mem_reverse.mpr inOps) l inOps found
    obtain ⟨wasOld, wasNew⟩ := setting.clean l mem
    have empty : ∀ {tree : Files} {y : Loc}, tree.entry y = none → ∀ s, tree.entry (y ++ s) = none := by
      intro tree y none s
      by_cases here : s = []
      · rw [here, List.append_nil, none]
      · exact tree.nothing_inside (by rw [none]; exact nofun) s here
    have same : fs.entry x = was.entry x := by
      rcases inside with ⟨s, rfl⟩ | ⟨s, rfl⟩ | ⟨s, rfl⟩
      · exact path s
      · rw [empty old, empty wasOld]
      · rw [empty new, empty wasNew]
    unfold entriesOutside
    rw [same]

/-! ## Cleaning up -/

/-- The backups that a clean-up removes. -/
def backups (was : Files) (ops : List JournalEntry) : List Loc :=
  (locations was (ops.filter fun op => op.creates = false)).map backup

theorem mem_backups (mem : op ∈ p.ops) (present : op.creates = false)
    (found : was.locate (components op.path) = some l) : backup l ∈ backups was p.ops := by
  refine List.mem_map_of_mem (List.mem_filterMap.mpr ⟨op, ?_, found⟩)
  exact List.mem_filter.mpr ⟨mem, decide_eq_true present⟩

/-- Nothing but directories and backups is gone. -/
def Sheds (area : Loc) (was : Files) (p : Plan) (fs fs' : Files) : Prop :=
  ∀ x, entriesOutside area fs' x = entriesOutside area fs x ∨
    entriesOutside area fs' x = none ∧ x ∈ backups was p.ops

theorem sheds_of_eq (same : entriesOutside area fs' = entriesOutside area fs) :
    Sheds area was p fs fs' := fun x => Or.inl (congrFun same x)

theorem Sheds.trans {fs'' : Files} (first : Sheds area was p fs fs')
    (second : Sheds area was p fs' fs'') : Sheds area was p fs fs'' := by
  intro x
  rcases second x with same | gone
  · rcases first x with before | ⟨none, backedUp⟩
    · exact Or.inl (same.trans before)
    · exact Or.inr ⟨same.trans none, backedUp⟩
  · exact Or.inr gone

/-- The tree while the backups of those in `done` are removed. -/
def Cleaned (area : Loc) (was applied : Files) (p : Plan) (done : List JournalEntry) (fs : Files) :
    Prop :=
  Sheds area was p applied fs ∧ ∀ op ∈ done, op.creates = false →
    ∀ l, was.locate (components op.path) = some l → entriesOutside area fs (backup l) = none

variable {applied : Files} {done : List JournalEntry}

theorem Cleaned.sheds (cleaned : Cleaned area was applied p done fs) (sheds : Sheds area was p fs fs') :
    Cleaned area was applied p done fs' := by
  refine ⟨cleaned.1.trans sheds, ?_⟩
  intro op mem present l found
  rcases sheds (backup l) with same | ⟨gone, -⟩
  · exact same.trans (cleaned.2 op mem present l found)
  · exact gone

theorem Cleaned.locates (apart : Apart area was p) (between : Between area was p applied)
    (cleaned : Cleaned area was applied p done fs) (mem : op ∈ p.ops) :
    fs.locate (components op.path) = was.locate (components op.path) := by
  refine FileTree.locate_congr ?_
  intro v way
  have clear := apart.ways op mem v way
  refine linkAt_eq_of_entries clear.1 ?_
  rw [← between.away v clear]
  rcases cleaned.1 v with same | ⟨-, backedUp⟩
  · exact same
  · obtain ⟨l, located, rfl⟩ := List.mem_map.mp backedUp
    obtain ⟨other, inOps, found⟩ := List.mem_filterMap.mp located
    have inLocs := mem_locations (List.mem_filter.mp inOps).1 found
    exact absurd (within_backup l) (clear.2 l inLocs)

theorem entriesOutside_eq_none {x : Loc} (bare : fs.entry x = none ∨ fs.entry x = some .dir) :
    entriesOutside area fs x = none := by
  unfold entriesOutside
  rcases bare with nothing | dir
  · rw [nothing, ite_self, ite_self]
  · rw [dir, if_pos rfl, ite_self]

/-- One entry comes away. -/
theorem entriesOutside_sets {y : Loc} (sets : Sets y none fs fs') (x : Loc) :
    entriesOutside area fs' x = entriesOutside area fs x ∨ entriesOutside area fs' x = none ∧ x = y := by
  by_cases same : x = y
  · exact Or.inr ⟨entriesOutside_eq_none (Or.inl (by rw [sets, if_pos same])), same⟩
  · left
    unfold entriesOutside
    rw [sets, if_neg same]

theorem removeEntryIfExists_none {y : Loc} (fails : removeEntryIfExists y fs = none) :
    fs.entry y = none ∨ fs.entry y = some .dir := by
  unfold removeEntryIfExists at fails
  split at fails
  · cases fails
  · unfold removeFileIfExists ifFound at fails
    split at fails
    · cases fails
    · cases fails
    · rename_i error
      exact FileTree.unlink_error error

theorem removeBackup_safe (apart : Apart area was p) (between : Between area was p applied)
    (mem : op ∈ p.ops) (present : op.creates = false)
    (cleaned : Cleaned area was applied p done fs) (goes : removeBackup op.path fs = some fs') :
    Cleaned area was applied p (done ++ [op]) fs' := by
  have sheds : Sheds area was p fs fs' ∧ ∀ l, was.locate (components op.path) = some l →
      entriesOutside area fs' (backup l) = none := by
    have locates := cleaned.locates apart between mem
    unfold removeBackup PkgStore.onPath at goes
    rw [locates] at goes
    cases found : was.locate (components op.path) with
    | none =>
        rw [found] at goes
        cases goes
        exact ⟨sheds_of_eq rfl, fun l none => by cases none⟩
    | some l =>
        rw [found] at goes
        have result : some ((removeEntryIfExists (backup l) fs).getD fs) = some fs' := goes
        refine (?_ : _ ∧ entriesOutside area fs' (backup l) = none).imp id
          fun gone l' same => Option.some.inj same ▸ gone
        cases removed : removeEntryIfExists (backup l) fs with
        | none =>
            rw [removed, Option.getD_none] at result
            cases result
            exact ⟨sheds_of_eq rfl, entriesOutside_eq_none (removeEntryIfExists_none removed)⟩
        | some next =>
            rw [removed, Option.getD_some] at result
            cases result
            by_cases dir : fs.entry (backup l) = some .dir
            · unfold removeEntryIfExists at removed
              rw [if_pos dir] at removed
              cases removed
              exact ⟨sheds_of_eq rfl, entriesOutside_eq_none (Or.inr dir)⟩
            · have sets := removeEntryIfExists_spec removed dir
              refine ⟨?_, entriesOutside_eq_none (Or.inl (by rw [sets, if_pos rfl]))⟩
              intro x
              refine (entriesOutside_sets sets x).imp id (And.imp id ?_)
              rintro rfl
              exact mem_backups mem present found
  obtain ⟨kept, earlier⟩ := cleaned.sheds sheds.1
  refine ⟨kept, ?_⟩
  intro other inDone
  rcases List.mem_append.mp inDone with before | last
  · exact earlier other before
  · cases List.mem_singleton.mp last
    exact fun _ => sheds.2

theorem pruneEmptyDir_sheds {dir : String} (goes : pruneEmptyDir dir fs = some fs') :
    entriesOutside area fs' = entriesOutside area fs := by
  unfold pruneEmptyDir at goes
  cases goes
  cases removed : (fs.locate (components dir)).bind fun loc => (fs.rmdir loc).toOption with
  | none => rfl
  | some next =>
      obtain ⟨loc, -, called⟩ := Option.bind_eq_some_iff.mp removed
      cases result : fs.rmdir loc with
      | error why => rw [result] at called; cases called
      | ok fs'' =>
          rw [result] at called
          cases called
          obtain ⟨wasDir, sets⟩ := FileTree.rmdir_ok result
          funext x
          rcases entriesOutside_sets sets x with same | ⟨none, rfl⟩
          · exact same
          · exact none.trans (entriesOutside_eq_none (Or.inr wasDir)).symm

theorem cleanupSteps_safe (apart : Apart area was p) (between : Between area was p applied) :
    CrashSafe (Cleaned area was applied p []) (cleanupSteps p.ops p.pruneDirs)
      (Cleaned area was applied p []) (Cleaned area was applied p p.ops) := by
  have stops : ∀ {done : List JournalEntry} (fs : Files), Cleaned area was applied p done fs →
      Cleaned area was applied p [] fs := fun fs cleaned => ⟨cleaned.1, fun _ none => by cases none⟩
  refine CrashSafe.append (R := Cleaned area was applied p p.ops) ?_ ?_
  · refine @CrashSafe.flatMap _ _ _ _ (Cleaned area was applied p) p.ops stops ?_
    intro done op rest all
    have mem : op ∈ p.ops := all ▸ List.mem_append_right _ List.mem_cons_self
    cases op with
    | created path =>
        refine .nil stops ?_
        intro fs cleaned
        refine ⟨cleaned.1, ?_⟩
        intro other inDone present
        rcases List.mem_append.mp inDone with before | last
        · exact cleaned.2 other before present
        · cases List.mem_singleton.mp last
          cases present
    | replaced path | removed path =>
        exact .cons stops
          (fun fs fs' cleaned goes => removeBackup_safe apart between mem rfl cleaned goes)
          (.nil stops fun _ cleaned => cleaned)
  · refine .keeps stops ?_
    intro step mem fs fs' cleaned goes
    obtain ⟨dir, -, rfl⟩ := List.mem_map.mp mem
    exact cleaned.sheds (sheds_of_eq (pruneEmptyDir_sheds goes))

/-- Two clean-ups that completed left the same. -/
theorem Cleaned.entries (cleaned : Cleaned area was applied p p.ops fs)
    (cleaned' : Cleaned area was applied p p.ops fs') :
    entriesOutside area fs = entriesOutside area fs' := by
  funext x
  by_cases backedUp : x ∈ backups was p.ops
  · obtain ⟨l, located, rfl⟩ := List.mem_map.mp backedUp
    obtain ⟨op, inOps, found⟩ := List.mem_filterMap.mp located
    obtain ⟨mem, present⟩ := List.mem_filter.mp inOps
    rw [cleaned.2 op mem (of_decide_eq_true present) l found,
      cleaned'.2 op mem (of_decide_eq_true present) l found]
  · rcases cleaned.1 x with same | ⟨-, there⟩
    · rcases cleaned'.1 x with same' | ⟨-, there⟩
      · exact same.trans same'.symm
      · exact absurd there backedUp
    · exact absurd there backedUp

/-- Every step of a clean-up goes through. -/
theorem cleanupSteps_total (ops : List JournalEntry) (pruneDirs : List String) (fs : Files) :
    ∃ fs', runSteps (cleanupSteps ops pruneDirs) fs = some fs' := by
  have total : ∀ steps : List (Step Files), (∀ step ∈ steps, ∀ fs, ∃ fs', step fs = some fs') →
      ∀ fs, ∃ fs', runSteps steps fs = some fs' := by
    intro steps each
    induction steps with
    | nil => exact fun fs => ⟨fs, rfl⟩
    | cons step rest ih =>
        intro fs
        obtain ⟨next, goes⟩ := each step List.mem_cons_self fs
        obtain ⟨last, goesOn⟩ := ih (fun other mem => each other (List.mem_cons_of_mem _ mem)) next
        refine ⟨last, ?_⟩
        unfold runSteps
        rw [goes]
        exact goesOn
  refine total _ ?_ fs
  intro step mem fs
  rcases List.mem_append.mp mem with inOps | inDirs
  · obtain ⟨op, -, inOp⟩ := List.mem_flatMap.mp inOps
    cases op with
    | created path => cases inOp
    | replaced path | removed path =>
        cases List.mem_singleton.mp inOp
        exact ⟨_, rfl⟩
  · obtain ⟨dir, -, rfl⟩ := List.mem_map.mp inDirs
    exact ⟨_, rfl⟩

end Running

end OmarchyPool.PkgStore
