/-
# OmarchyPool.Agent.LastGood -- the two directories, whatever stops in between

A round renders its set into `staging/`, and a commit makes that directory `last-good/`.  Each is
a row of file operations, and the process may die after any of them.  What makes a stopped commit
safe is that its step was saved before its first operation, and that the directories themselves
tell how far it came (`Sound.commits`).

What is not safe is a step whose operations run before the state that goes with them is saved,
while the saved round still reads the directory they change.  A round that preempts another
renders in the very tick that starts it; if that tick is not saved, the old round comes back and
finds the new one's files in `staging/` (`Torn`).
-/
import OmarchyPool.Agent.Once

namespace OmarchyPool.Agent

open OmarchyPool.Lib

set_option autoImplicit false

variable {cfg : Config} {host : Host} {disk : Disk} {s t : State} {release : Release}

/-! ## A rendered set -/

/-- All a round writes of one release: the set's own files, its pins, and the overlay. -/
structure Rendered (cfg : Config) (release : Release) (dir : Dir) : Prop where
  valid : OrderedMap.Valid dir
  pins : pinsRelease (some dir) = some release
  set : ∃ set services inputs, readSet cfg (some dir) = .ok (set, services) ∧
    fileIn (some dir) overlayPath = some (.overlay services release inputs)

def Holding (cfg : Config) (release : Release) (dir : Option Dir) : Prop :=
  ∃ files, dir = some files ∧ Rendered cfg release files

theorem readText_congr {dir other : Option Dir} {path : String}
    (same : fileIn dir path = fileIn other path) : readText dir path = readText other path := by
  unfold readText
  rw [same]

theorem readSet_congr {dir other : Option Dir}
    (toml : fileIn dir setTomlPath = fileIn other setTomlPath)
    (compose : fileIn dir composePath = fileIn other composePath) :
    readSet cfg dir = readSet cfg other := by
  unfold readSet
  rw [readText_congr toml, readText_congr compose]

theorem readSet_compose {dir : Option Dir} {read : SetToml × List String}
    (ok : readSet cfg dir = .ok read) : (fileIn dir composePath).isSome = true := by
  unfold readSet at ok
  cases toml : readText dir setTomlPath with
  | error why => rw [toml] at ok; cases ok
  | ok text =>
      rw [toml] at ok
      cases parsed : cfg.parseSetToml text with
      | error why =>
          simp only [bind, Except.bind, parsed] at ok
          cases ok
      | ok set =>
          cases compose : readText dir composePath with
          | error why =>
              simp only [bind, Except.bind, parsed, compose] at ok
              cases ok
          | ok text =>
              unfold readText at compose
              split at compose
              · rename_i found
                rw [found]
                rfl
              · cases compose

theorem Rendered.compose {dir : Dir} (rendered : Rendered cfg release dir) :
    (OrderedMap.get composePath dir).isSome = true := by
  obtain ⟨set, services, inputs, read, -⟩ := rendered.set
  exact readSet_compose read

/-! ## What operations leave alone -/

def Op.touches : Op → Files → Bool
  | .reset files, other | .write files _ _, other => files = other
  | .writeSet _ _, _ => false
  | .rename, _ => true
  | .removeStaging, other => other = .staging

theorem run_spares {op : Op} {files : Files} (spares : op.touches files = false) (disk : Disk) :
    (op.run disk).dir files = disk.dir files := by
  cases op with
  | reset other => cases other <;> cases files <;> first | rfl | cases spares
  | write other path content => cases other <;> cases files <;> first | rfl | cases spares
  | writeSet path content => cases files <;> rfl
  | rename => cases spares
  | removeStaging => cases files <;> first | rfl | cases spares

theorem after_spares {ops : List Op} {files : Files}
    (spares : ∀ op ∈ ops, op.touches files = false) (disk : Disk) :
    (disk.after ops).dir files = disk.dir files := by
  induction ops generalizing disk with
  | nil => rfl
  | cons op rest ih =>
      have here := run_spares (spares op List.mem_cons_self) disk
      exact (ih (fun later mem => spares later (List.mem_cons_of_mem _ mem)) _).trans here

theorem after_append (disk : Disk) (ops more : List Op) :
    disk.after (ops ++ more) = (disk.after ops).after more := List.foldl_append

theorem writeSetDir_spares (good : Dir) (files : Files) :
    ∀ op ∈ writeSetDir good, op.touches files = false := by
  intro op mem
  obtain ⟨entry, -, rfl⟩ := List.mem_map.mp mem
  rfl

theorem writes_spare (dir : Dir) : ∀ op ∈ writes .staging dir, op.touches .lastGood = false := by
  intro op mem
  obtain ⟨entry, -, rfl⟩ := List.mem_map.mp mem
  rfl

/-- A directory emptied and written again holds what was written. -/
theorem staging_writes {dir : Dir} (valid : OrderedMap.Valid dir) (disk : Disk) :
    (disk.after (.reset .staging :: writes .staging dir)).staging = some dir := by
  have each : ∀ (entries done : Dir) (d : Disk), d.staging = some done →
      (d.after (writes .staging entries)).staging =
        some (entries.foldl (fun map entry => OrderedMap.set entry.1 entry.2 map) done) := by
    intro entries
    induction entries with
    | nil => intro done d known; exact known
    | cons entry rest ih =>
        intro done d known
        refine ih (done.set entry.1 entry.2) _ ?_
        show some (OrderedMap.set entry.1 entry.2 (d.staging.getD [])) = _
        rw [known]
        rfl
  have built := each dir [] (Op.run disk (.reset .staging)) rfl
  rw [show dir.foldl (fun map entry => OrderedMap.set entry.1 entry.2 map) [] = dir from
    OrderedMap.ofList_of_nodup valid] at built
  exact built

/-! ## Where a round stands -/

/-- The steps that read `staging/`. -/
def usesStaging : Step → Bool
  | .lint | .plan | .pull | .replace .staging _ | .guard _ => true
  | .idle | .render | .replace .lastGood _ | .commit | .revert _ => false

/-- A commit that can be run, or run again. -/
def Committable (cfg : Config) (release : Release) (disk : Disk) : Prop :=
  Holding cfg release disk.staging ∨ disk.staging = none ∧ Holding cfg release disk.lastGood

/-- The directories are as the state says. -/
structure Sound (cfg : Config) (s : State) (disk : Disk) : Prop where
  good : s.rollout.step ≠ .commit → ∀ release, s.applied = some release →
    Holding cfg release disk.lastGood
  staged : usesStaging s.rollout.step = true → disk.staging = none ∨
    ∃ release, s.rollout.target = some release ∧ Holding cfg release disk.staging
  commits : s.rollout.step = .commit →
    ∃ release, s.rollout.target = some release ∧ Committable cfg release disk

/-- Only the step of the round has changed. -/
theorem Sound.moved (sound : Sound cfg s disk) (notCommit : s.rollout.step ≠ .commit)
    (applied : t.applied = s.applied) (target : t.rollout.target = s.rollout.target)
    (staged : usesStaging t.rollout.step = true → usesStaging s.rollout.step = true)
    (commits : t.rollout.step = .commit →
      usesStaging s.rollout.step = true ∧ disk.staging ≠ none) : Sound cfg t disk where
  good := by
    intro _ release runs
    rw [applied] at runs
    exact sound.good notCommit release runs
  staged := by
    intro uses
    rw [target]
    exact sound.staged (staged uses)
  commits := by
    intro commit
    obtain ⟨uses, there⟩ := commits commit
    rcases sound.staged uses with gone | ⟨release, names, holding⟩
    · exact absurd gone there
    · rw [target]
      exact ⟨release, names, Or.inl holding⟩

/-- No round is in flight, and what runs is in `last-good/`. -/
theorem Sound.isOver {after : Disk} (idle : t.rollout.step = .idle)
    (good : ∀ release, t.applied = some release → Holding cfg release after.lastGood) :
    Sound cfg t after where
  good := fun _ => good
  staged := by
    intro uses
    rw [idle] at uses
    cases uses
  commits := by
    intro commit
    rw [idle] at commit
    cases commit

/-- A round ended, with operations that left `last-good/` alone. -/
theorem Sound.ended (sound : Sound cfg s disk) (notCommit : s.rollout.step ≠ .commit)
    (applied : t.applied = s.applied) (idle : t.rollout.step = .idle) {ops : List Op}
    (spares : ∀ op ∈ ops, op.touches .lastGood = false) : Sound cfg t (disk.after ops) := by
  refine Sound.isOver idle ?_
  intro release runs
  have same : (disk.after ops).lastGood = disk.lastGood := after_spares spares disk
  rw [same]
  rw [applied] at runs
  exact sound.good notCommit release runs

theorem Sound.finishAfter (sound : Sound cfg s disk) (notCommit : s.rollout.step ≠ .commit)
    {now : Int} {outcome : Outcome} {fromRelease : Option Release} {ops : List Op}
    (spares : ∀ op ∈ ops, op.touches .lastGood = false) :
    Sound cfg (finish s now outcome fromRelease) (disk.after ops) :=
  sound.ended (t := finish s now outcome fromRelease) notCommit rfl rfl spares

/-! ## Render -/

theorem pinsRelease_get {dir : Dir} :
    pinsRelease (some dir) = some release ↔ OrderedMap.get pinsPath dir = some (.pins release) := by
  unfold pinsRelease fileIn
  simp only [Option.bind_some]
  constructor
  · intro names
    split at names
    · rename_i found
      cases names
      exact found
    · cases names
  · intro found
    rw [found]

/-- What is rendered names the release it is rendered for. -/
theorem renderFiles_spec {pending : Option Target} {found : Dir}
    (good : ∀ release, s.applied = some release → Holding cfg release disk.lastGood)
    (files : renderFiles s pending disk release = some found) :
    OrderedMap.Valid found ∧ OrderedMap.get pinsPath found = some (.pins release) := by
  unfold renderFiles at files
  split at files
  · rename_i target picked
    cases files
    obtain ⟨-, same⟩ := Option.filter_eq_some_iff.mp picked
    have names : target.release = release := of_decide_eq_true same
    refine ⟨target.files.valid.set _ _, ?_⟩
    rw [OrderedMap.get_set, if_pos rfl, names]
  · split at files
    · rename_i runs
      obtain ⟨dir, isDir, rendered⟩ := good release runs.1
      rw [isDir] at files
      cases files
      exact ⟨rendered.valid, pinsRelease_get.mp rendered.pins⟩
    · cases files

theorem rendered_written {found : Dir} {set : SetToml} {services : List String} {inputs : String}
    (valid : OrderedMap.Valid found)
    (pins : OrderedMap.get pinsPath found = some (.pins release))
    (read : readSet cfg (some (found.delete overlayPath)) = .ok (set, services)) :
    Rendered cfg release
      ((found.delete overlayPath).set overlayPath (.overlay services release inputs)) := by
  have elsewhere : ∀ path, path ≠ overlayPath →
      OrderedMap.get path ((OrderedMap.delete overlayPath found).set overlayPath
        (.overlay services release inputs)) = OrderedMap.get path found := by
    intro path other
    rw [OrderedMap.get_set, if_neg (Ne.symm other), OrderedMap.get_delete, if_neg (Ne.symm other)]
  have kept : ∀ path, path ≠ overlayPath →
      fileIn (some ((OrderedMap.delete overlayPath found).set overlayPath
        (.overlay services release inputs))) path =
      fileIn (some (OrderedMap.delete overlayPath found)) path := by
    intro path other
    unfold fileIn
    simp only [Option.bind_some]
    rw [elsewhere path other, OrderedMap.get_delete, if_neg (Ne.symm other)]
  refine ⟨(valid.delete _).set _ _, ?_, set, services, inputs, ?_, ?_⟩
  · rw [pinsRelease_get, elsewhere pinsPath (by decide)]
    exact pins
  · rw [readSet_congr (kept setTomlPath (by decide)) (kept composePath (by decide))]
    exact read
  · unfold fileIn
    simp only [Option.bind_some]
    rw [OrderedMap.get_set, if_pos rfl]

theorem render_spares {pending : Option Target} :
    ∀ op ∈ (render cfg host disk pending s).ops, op.touches .lastGood = false := by
  have staging : ∀ dir : Dir, ∀ op ∈ Op.reset .staging :: writes .staging dir,
      op.touches .lastGood = false := by
    intro dir op mem
    rcases List.mem_cons.mp mem with rfl | later
    · rfl
    · exact writes_spare dir op later
  unfold render
  split
  · intro op mem; cases mem
  split
  · intro op mem; cases mem
  dsimp only
  split
  · exact staging _
  split
  · intro op mem
    rcases List.mem_append.mp mem with early | last
    · exact staging _ op early
    · rw [List.mem_singleton.mp last]
      rfl
  · exact staging _

theorem render_sound {pending : Option Target} (sound : Sound cfg s disk)
    (step : s.rollout.step = .render) :
    Sound cfg (render cfg host disk pending s).state
      (disk.after (render cfg host disk pending s).ops) := by
  have notCommit : s.rollout.step ≠ .commit := by rw [step]; exact fun same => nomatch same
  have spares := @render_spares cfg host disk s pending
  generalize shape : render cfg host disk pending s = work at spares ⊢
  unfold render at shape
  split at shape
  · subst shape
    exact sound.finishAfter notCommit spares
  rename_i target names
  split at shape
  · subst shape
    exact sound.finishAfter notCommit spares
  rename_i found files
  obtain ⟨valid, pins⟩ := renderFiles_spec (sound.good notCommit) files
  dsimp only at shape
  split at shape
  · subst shape
    exact sound.finishAfter notCommit spares
  rename_i set services read
  split at shape
  · subst shape
    have good : (disk.after (.reset .staging :: writes .staging (found.delete overlayPath) ++
        [.write .staging overlayPath (.overlay services target host.inputs)])).lastGood =
          disk.lastGood := after_spares spares disk
    have built := staging_writes (valid.delete overlayPath) disk
    have staged : (disk.after (.reset .staging :: writes .staging (found.delete overlayPath) ++
        [.write .staging overlayPath (.overlay services target host.inputs)])).staging =
          some ((found.delete overlayPath).set overlayPath
            (.overlay services target host.inputs)) := by
      rw [after_append]
      show some (OrderedMap.set overlayPath _ ((disk.after (.reset .staging ::
        writes .staging (found.delete overlayPath))).staging.getD [])) = _
      rw [built]
      rfl
    refine ⟨?_, ?_, ?_⟩
    · intro _ release runs
      rw [good]
      exact sound.good notCommit release runs
    · intro _
      exact Or.inr ⟨target, names, _, staged, rendered_written valid pins read⟩
    · intro commit
      cases commit
  · subst shape
    exact sound.finishAfter notCommit spares

/-! ## The other steps -/

theorem Sound.engineWait (sound : Sound cfg s disk) (now : Int) :
    Sound cfg (engineWait s now) disk := by
  have shape : ∃ round, Agent.engineWait s now = { s with round := round } := by
    unfold Agent.engineWait
    split
    · split
      · exact ⟨_, rfl⟩
      · exact ⟨s.round, rfl⟩
    · exact ⟨_, rfl⟩
  obtain ⟨round, shape⟩ := shape
  rw [shape]
  exact ⟨sound.good, sound.staged, sound.commits⟩

/-- What a step without operations leaves, when it goes on or gives up. -/
theorem Sound.goes (sound : Sound cfg s disk) {step : Step} (now : Int)
    (uses : usesStaging s.rollout.step = true) (there : step = .commit → disk.staging ≠ none) :
    Sound cfg (go s now step) disk := by
  refine sound.moved ?_ rfl rfl (fun _ => uses) (fun commit => ⟨uses, there commit⟩)
  intro commit
  rw [commit] at uses
  cases uses

theorem Sound.finish (sound : Sound cfg s disk) (notCommit : s.rollout.step ≠ .commit) (now : Int)
    (outcome : Outcome) (fromRelease : Option Release) :
    Sound cfg (finish s now outcome fromRelease) disk :=
  @Sound.finishAfter cfg disk s sound notCommit now outcome fromRelease [] (by simp)

theorem lintStep_sound (sound : Sound cfg s disk) (step : s.rollout.step = .lint) :
    (lintStep host disk s).ops = [] ∧ Sound cfg (lintStep host disk s).state disk := by
  have notCommit : s.rollout.step ≠ .commit := by rw [step]; exact fun same => nomatch same
  have uses : usesStaging s.rollout.step = true := by rw [step]; rfl
  unfold lintStep
  dsimp only
  split
  · exact ⟨rfl, sound.finish notCommit _ _ _⟩
  · exact ⟨rfl, sound.goes _ uses (fun same => nomatch same)⟩
  · exact ⟨rfl, sound.finish notCommit _ _ _⟩

/-- A project that can be read is there. -/
theorem project_there {read : SetToml × List String}
    (ok : project cfg disk .staging = .ok read) : disk.staging ≠ none := by
  intro gone
  have compose : (fileIn disk.staging composePath).isSome = true := readSet_compose ok
  rw [gone] at compose
  cases compose

theorem planAgainst_sound {engine : Engine} {wanted : OrderedMap String String}
    {services : List String} (sound : Sound cfg s disk) (step : s.rollout.step = .plan)
    (there : disk.staging ≠ none) (units : List Container) :
    (planAgainst host engine wanted services s units).ops = [] ∧
      Sound cfg (planAgainst host engine wanted services s units).state disk := by
  have notCommit : s.rollout.step ≠ .commit := by rw [step]; exact fun same => nomatch same
  have uses : usesStaging s.rollout.step = true := by rw [step]; rfl
  have planned : ∀ services : List String,
      Sound cfg { s with rollout := { s.rollout with services := services } } disk :=
    fun services => ⟨sound.good, sound.staged, sound.commits⟩
  unfold planAgainst
  dsimp only
  split
  · exact ⟨rfl, (planned _).goes _ uses (fun _ => there)⟩
  split
  · exact ⟨rfl, (planned _).goes _ uses (fun same => nomatch same)⟩
  · exact ⟨rfl, (planned _).finish notCommit _ _ _⟩
  · exact ⟨rfl, (planned _).finish notCommit _ _ _⟩

theorem plan_sound (sound : Sound cfg s disk) (step : s.rollout.step = .plan) :
    (plan cfg host disk s).ops = [] ∧ Sound cfg (plan cfg host disk s).state disk := by
  have notCommit : s.rollout.step ≠ .commit := by rw [step]; exact fun same => nomatch same
  unfold plan
  split
  · exact ⟨rfl, sound.finish notCommit _ _ _⟩
  rename_i read
  split
  · exact ⟨rfl, sound.finish notCommit _ _ _⟩
  split
  · exact ⟨rfl, sound.engineWait _⟩
  split
  · exact ⟨rfl, sound.engineWait _⟩
  split
  · exact planAgainst_sound sound step (project_there read) _
  · exact planAgainst_sound sound step (project_there read) _
  · exact ⟨rfl, sound.engineWait _⟩

theorem pull_sound (sound : Sound cfg s disk) (step : s.rollout.step = .pull) :
    (pull cfg host disk s).ops = [] ∧ Sound cfg (pull cfg host disk s).state disk := by
  have notCommit : s.rollout.step ≠ .commit := by rw [step]; exact fun same => nomatch same
  have uses : usesStaging s.rollout.step = true := by rw [step]; rfl
  unfold pull
  split
  · exact ⟨rfl, sound.finish notCommit _ _ _⟩
  split
  · exact ⟨rfl, sound.engineWait _⟩
  split
  · split
    · exact ⟨rfl, sound⟩
    · exact ⟨rfl, sound.finish notCommit _ _ _⟩
    · exact ⟨rfl, sound.finish notCommit _ _ _⟩
  · exact ⟨rfl, sound⟩
  · exact ⟨rfl, sound.goes _ uses (fun same => nomatch same)⟩
  · exact ⟨rfl, sound.finish notCommit _ _ _⟩
  · exact ⟨rfl, sound.engineWait _⟩

/-! ## Replace and revert -/

/-- A revert's last operations: `last-good/` stays, `staging/` stays or goes. -/
def Reverts (ops : List Op) : Prop :=
  ∀ op ∈ ops, op.touches .lastGood = false ∧ (op.touches .staging = false ∨ op = .removeStaging)

theorem finishRevert_reverts : Reverts (finishRevert host disk s).ops := by
  unfold finishRevert
  dsimp only
  intro op mem
  rcases List.mem_append.mp mem with copied | removed
  · split at copied
    · exact ⟨writeSetDir_spares _ _ op copied, Or.inl (writeSetDir_spares _ _ op copied)⟩
    · cases copied
  · split at removed
    · rw [List.mem_singleton.mp removed]
      exact ⟨rfl, Or.inr rfl⟩
    · cases removed

theorem finishRevert_sound (sound : Sound cfg s disk) (notCommit : s.rollout.step ≠ .commit) :
    Sound cfg (finishRevert host disk s).state (disk.after (finishRevert host disk s).ops) := by
  have spares : ∀ op ∈ (finishRevert host disk s).ops, op.touches .lastGood = false :=
    fun op mem => (finishRevert_reverts op mem).1
  have applied : (finishRevert host disk s).state.applied = s.applied := by
    unfold finishRevert
    dsimp only
    split <;> rfl
  exact sound.ended notCommit applied rfl spares

theorem revert_sound {why : String} (sound : Sound cfg s disk)
    (step : s.rollout.step = .revert why) :
    Reverts (revert host disk s why).ops ∧
      Sound cfg (revert host disk s why).state (disk.after (revert host disk s why).ops) := by
  have notCommit : s.rollout.step ≠ .commit := by rw [step]; exact fun same => nomatch same
  unfold revert
  split
  · refine ⟨fun op mem => (by cases mem), ?_⟩
    exact sound.moved notCommit rfl rfl (fun uses => (by cases uses)) (fun commit => (by cases commit))
  · exact ⟨finishRevert_reverts, finishRevert_sound sound notCommit⟩

theorem failReplace_sound {files : Files} {phase : Phase} (why : String)
    (sound : Sound cfg s disk) (step : s.rollout.step = .replace files phase) :
    Reverts (failReplace host disk s files why).ops ∧
      (usesStaging s.rollout.step = true → (failReplace host disk s files why).ops = []) ∧
      Sound cfg (failReplace host disk s files why).state
        (disk.after (failReplace host disk s files why).ops) := by
  have notCommit : s.rollout.step ≠ .commit := by rw [step]; exact fun same => nomatch same
  unfold failReplace
  split
  · refine ⟨fun op mem => (by cases mem), fun _ => rfl, ?_⟩
    exact sound.moved notCommit rfl rfl (fun uses => (by cases uses)) (fun commit => (by cases commit))
  · refine ⟨finishRevert_reverts, ?_, finishRevert_sound sound notCommit⟩
    intro uses
    rw [step] at uses
    cases uses

/-- A phase of a replace goes on with the same files, or to the guard of the staged ones. -/
theorem replacePhase_goes {engine : Engine} {set : SetToml} {services : List String} {files : Files}
    {now : Int} {phase : Phase} {step : Step}
    (goes : replacePhase engine set services files now phase = .go step) :
    usesStaging step = usesStaging (.replace files phase) ∧ step ≠ .commit := by
  cases phase with
  | stop =>
      simp only [replacePhase] at goes
      split at goes
      · cases goes
      · cases goes
        cases files <;> exact ⟨rfl, fun same => by cases same⟩
  | drain since =>
      simp only [replacePhase, afterDrain] at goes
      split at goes
      · cases goes
      · cases goes
        cases files <;> exact ⟨rfl, fun same => by cases same⟩
      · cases goes
  | create since =>
      simp only [replacePhase] at goes
      split at goes
      · cases goes
        cases files <;> exact ⟨rfl, fun same => by cases same⟩
      · split at goes <;> cases goes
      · split at goes <;> cases goes
  | ready since =>
      simp only [replacePhase, afterReady] at goes
      split at goes
      · cases goes
      · split at goes
        · cases goes
          exact ⟨rfl, fun same => by cases same⟩
        · cases goes
      · split at goes <;> cases goes

theorem replacePhase_reverted {engine : Engine} {set : SetToml} {services : List String}
    {files : Files} {now : Int} {phase : Phase}
    (reverted : replacePhase engine set services files now phase = .reverted) :
    files = .lastGood := by
  cases phase with
  | stop =>
      simp only [replacePhase] at reverted
      split at reverted <;> cases reverted
  | drain since =>
      simp only [replacePhase, afterDrain] at reverted
      split at reverted <;> cases reverted
  | create since =>
      simp only [replacePhase] at reverted
      split at reverted
      · cases reverted
      · split at reverted <;> cases reverted
      · split at reverted <;> cases reverted
  | ready since =>
      simp only [replacePhase, afterReady] at reverted
      split at reverted
      · cases reverted
      · split at reverted
        · cases reverted
        · rfl
      · split at reverted <;> cases reverted

theorem replace_sound {files : Files} {phase : Phase} (sound : Sound cfg s disk)
    (step : s.rollout.step = .replace files phase) :
    Reverts (replace cfg host disk s files phase).ops ∧
      (usesStaging s.rollout.step = true → (replace cfg host disk s files phase).ops = []) ∧
      Sound cfg (replace cfg host disk s files phase).state
        (disk.after (replace cfg host disk s files phase).ops) := by
  have notCommit : s.rollout.step ≠ .commit := by rw [step]; exact fun same => nomatch same
  have nothing : Reverts [] := fun op mem => (by cases mem)
  unfold replace
  split
  · exact failReplace_sound _ sound step
  dsimp only
  split
  · exact ⟨nothing, fun _ => rfl, sound.engineWait _⟩
  split
  · rename_i next goes
    obtain ⟨uses, notNow⟩ := replacePhase_goes goes
    split
    · refine ⟨nothing, fun _ => rfl, ?_⟩
      refine sound.moved notCommit rfl rfl ?_ (fun commit => absurd commit notNow)
      intro used
      rw [step, ← uses]
      exact used
    · refine ⟨nothing, fun _ => rfl, ?_⟩
      refine sound.moved notCommit rfl rfl ?_ (fun commit => absurd commit notNow)
      intro used
      rw [step, ← uses]
      exact used
  · exact ⟨nothing, fun _ => rfl, sound⟩
  · exact ⟨nothing, fun _ => rfl, sound.engineWait _⟩
  · exact failReplace_sound _ sound step
  · rename_i reverted
    refine ⟨finishRevert_reverts, ?_, finishRevert_sound sound notCommit⟩
    intro uses
    rw [step, replacePhase_reverted reverted] at uses
    cases uses

/-! ## Guard -/

theorem Sound.guardStays {g : Guard} (sound : Sound cfg s disk)
    (uses : usesStaging s.rollout.step = true) : Sound cfg (guardStays s g) disk := by
  refine sound.moved ?_ rfl rfl (fun _ => uses) (fun commit => (by cases commit))
  intro commit
  rw [commit] at uses
  cases uses

theorem Sound.guardFails {why : String} (sound : Sound cfg s disk)
    (uses : usesStaging s.rollout.step = true) : Sound cfg (guardFails host s why) disk :=
  sound.goes _ uses (fun same => nomatch same)

theorem guardPassed_sound {g : Guard} {guardS : Nat} (sound : Sound cfg s disk)
    (uses : usesStaging s.rollout.step = true) (there : disk.staging ≠ none) :
    (guardPassed host s g guardS).ops = [] ∧ Sound cfg (guardPassed host s g guardS).state disk := by
  unfold guardPassed
  split
  · exact ⟨rfl, sound.goes _ uses (fun _ => there)⟩
  · exact ⟨rfl, sound.guardStays uses⟩

theorem guardReady_sound {engine : Engine} {g : Guard} {http : Option String} {guardS : Nat}
    {settling : Bool} (sound : Sound cfg s disk) (uses : usesStaging s.rollout.step = true)
    (there : disk.staging ≠ none) :
    (guardReady host engine s g http guardS settling).ops = [] ∧
      Sound cfg (guardReady host engine s g http guardS settling).state disk := by
  unfold guardReady
  split
  · exact guardPassed_sound sound uses there
  split
  · exact guardPassed_sound sound uses there
  · split
    · exact ⟨rfl, sound.guardStays uses⟩
    · exact ⟨rfl, sound.guardFails uses⟩
  · split
    · exact ⟨rfl, sound.guardStays uses⟩
    · exact ⟨rfl, sound.guardFails uses⟩
  · exact ⟨rfl, sound.engineWait _⟩

theorem guardSample_sound {engine : Engine} {g : Guard} {set : SetToml} {services : List String}
    {u : Container} {exits : List Exit} (sound : Sound cfg s disk)
    (uses : usesStaging s.rollout.step = true) (there : disk.staging ≠ none) :
    (guardSample host engine s g set services u exits).ops = [] ∧
      Sound cfg (guardSample host engine s g set services u exits).state disk := by
  unfold guardSample
  dsimp only
  split
  · exact ⟨rfl, sound.guardFails uses⟩
  · exact ⟨rfl, sound.guardStays uses⟩
  · exact guardReady_sound sound uses there

theorem guard_sound {g : Guard} (sound : Sound cfg s disk) (step : s.rollout.step = .guard g) :
    (guard cfg host disk s g).ops = [] ∧ Sound cfg (guard cfg host disk s g).state disk := by
  have uses : usesStaging s.rollout.step = true := by rw [step]; rfl
  unfold guard
  split
  · exact ⟨rfl, sound⟩
  split
  · exact ⟨rfl, sound.guardFails uses⟩
  rename_i read
  have there := project_there read
  split
  · exact ⟨rfl, sound.engineWait _⟩
  split
  · exact ⟨rfl, sound.guardFails uses⟩
  · exact ⟨rfl, sound.engineWait _⟩
  split
  · exact guardSample_sound sound uses there
  · exact guardSample_sound sound uses there
  · exact ⟨rfl, sound.engineWait _⟩

/-! ## Commit -/

/-- The two ways a commit goes: from `staging/`, or, that being gone, once more over `last-good/`. -/
theorem commitFiles_cases {target : Release} (committable : Committable cfg release disk) :
    (∃ staged, disk.staging = some staged ∧ Rendered cfg release staged ∧
      commitFiles disk target = some (.reset .lastGood :: .rename :: writeSetDir staged)) ∨
    (disk.staging = none ∧ Holding cfg release disk.lastGood ∧
      ∀ ops, commitFiles disk target = some ops → ∃ good, ops = writeSetDir good) := by
  rcases committable with ⟨staged, known, rendered⟩ | ⟨gone, holding⟩
  · refine Or.inl ⟨staged, known, rendered, ?_⟩
    unfold commitFiles
    rw [known]
    exact if_pos rendered.compose
  · refine Or.inr ⟨gone, holding, ?_⟩
    intro ops files
    unfold commitFiles at files
    rw [gone] at files
    simp only [commitFiles.commitAgain] at files
    split at files
    · cases files
      exact ⟨_, rfl⟩
    · cases files

/-- A commit that stops anywhere can be run again. -/
theorem committable_take {target : Release} (committable : Committable cfg release disk)
    {ops : List Op} (files : commitFiles disk target = some ops) (done : Nat) :
    Committable cfg release (disk.after (ops.take done)) := by
  rcases @commitFiles_cases cfg disk release target committable with
    ⟨staged, known, rendered, shape⟩ | ⟨gone, holding, shape⟩
  · rw [shape] at files
    cases files
    match done with
    | 0 => exact Or.inl ⟨staged, known, rendered⟩
    | 1 => exact Or.inl ⟨staged, known, rendered⟩
    | done + 2 =>
        -- From the rename on `staging/` is gone, and the rest is copied out of the set.
        have spares : ∀ files, ∀ op ∈ (writeSetDir staged).take done, op.touches files = false :=
          fun files op mem => writeSetDir_spares staged files op (List.mem_of_mem_take mem)
        have stagingIs := after_spares (spares .staging)
          (Op.run (Op.run disk (.reset .lastGood)) .rename)
        have goodIs := after_spares (spares .lastGood)
          (Op.run (Op.run disk (.reset .lastGood)) .rename)
        refine Or.inr ⟨stagingIs, staged, ?_, rendered⟩
        exact goodIs.trans known
  · obtain ⟨good, rfl⟩ := shape ops files
    have spares : ∀ files, ∀ op ∈ (writeSetDir good).take done, op.touches files = false :=
      fun files op mem => writeSetDir_spares good files op (List.mem_of_mem_take mem)
    have stagingIs := after_spares (spares .staging) disk
    have goodIs := after_spares (spares .lastGood) disk
    refine Or.inr ⟨stagingIs.trans gone, ?_⟩
    obtain ⟨dir, isDir, rendered⟩ := holding
    exact ⟨dir, goodIs.trans isDir, rendered⟩

/-- A commit that can be run commits its target, and leaves `staging/` gone. -/
theorem commit_spec (names : s.rollout.target = some release)
    (committable : Committable cfg release disk) :
    ∃ ops, commitFiles disk release = some ops ∧ (commit host disk s).ops = ops ∧
      (commit host disk s).state.applied = some release ∧
      (commit host disk s).state.rollout.step = .idle ∧
      (disk.after ops).staging = none ∧ Holding cfg release (disk.after ops).lastGood := by
  have found : ∃ ops, commitFiles disk release = some ops ∧
      (disk.after ops).staging = none ∧ Holding cfg release (disk.after ops).lastGood := by
    rcases @commitFiles_cases cfg disk release release committable with
      ⟨staged, known, rendered, shape⟩ | ⟨gone, holding, -⟩
    · refine ⟨_, shape, ?_⟩
      have stagingIs := after_spares (writeSetDir_spares staged .staging)
        (Op.run (Op.run disk (.reset .lastGood)) .rename)
      have goodIs := after_spares (writeSetDir_spares staged .lastGood)
        (Op.run (Op.run disk (.reset .lastGood)) .rename)
      exact ⟨stagingIs, staged, goodIs.trans known, rendered⟩
    · obtain ⟨dir, isDir, rendered⟩ := holding
      have pins : pinsRelease disk.lastGood = some release := by rw [isDir]; exact rendered.pins
      refine ⟨writeSetDir (disk.lastGood.getD []), ?_, ?_, dir, ?_, rendered⟩
      · unfold commitFiles
        rw [gone]
        exact if_pos pins
      · exact (after_spares (writeSetDir_spares _ .staging) disk).trans gone
      · exact (after_spares (writeSetDir_spares _ .lastGood) disk).trans isDir
  obtain ⟨ops, files, gone, holding⟩ := found
  have shape : ∃ committed, (commit host disk s).ops = ops ∧
      (commit host disk s).state = finish committed host.now
        (if s.rollout.services ≠ [] ∨ s.rollout.fromRelease ≠ some release then .ok else .noChange)
          none ∧ committed.applied = some release := by
    unfold commit
    rw [names]
    dsimp only
    rw [files]
    exact ⟨_, rfl, rfl, rfl⟩
  obtain ⟨committed, opsAre, stateIs, applied⟩ := shape
  refine ⟨ops, files, opsAre, ?_, ?_, gone, holding⟩
  · rw [stateIs]
    exact applied
  · rw [stateIs]
    rfl

theorem commit_sound (sound : Sound cfg s disk) (step : s.rollout.step = .commit) :
    Sound cfg (commit host disk s).state (disk.after (commit host disk s).ops) := by
  obtain ⟨release, names, committable⟩ := sound.commits step
  obtain ⟨ops, -, opsAre, applied, idle, -, holding⟩ := @commit_spec cfg host disk s release names
    committable
  rw [opsAre]
  refine Sound.isOver idle ?_
  intro other runs
  rw [applied] at runs
  cases runs
  exact holding

/-! ## Any step -/

theorem step_sound (pending : Option Target) (sound : Sound cfg s disk) :
    Sound cfg (step cfg host disk pending s).state
      (disk.after (step cfg host disk pending s).ops) := by
  unfold step
  split
  · exact sound
  · rename_i here; exact render_sound sound here
  · rename_i here
    obtain ⟨none, after⟩ := @lintStep_sound cfg host disk s sound here
    rw [none]
    exact after
  · rename_i here
    obtain ⟨none, after⟩ := @plan_sound cfg host disk s sound here
    rw [none]
    exact after
  · rename_i here
    obtain ⟨none, after⟩ := @pull_sound cfg host disk s sound here
    rw [none]
    exact after
  · rename_i here; exact (replace_sound sound here).2.2
  · rename_i here
    obtain ⟨none, after⟩ := @guard_sound cfg host disk s _ sound here
    rw [none]
    exact after
  · rename_i here; exact commit_sound sound here
  · rename_i here; exact (revert_sound sound here).2

/-- What the operations of a step are, but for a render's and a commit's. -/
theorem step_reverts (pending : Option Target) (sound : Sound cfg s disk)
    (notRender : s.rollout.step ≠ .render) (notCommit : s.rollout.step ≠ .commit) :
    Reverts (step cfg host disk pending s).ops ∧
      (usesStaging s.rollout.step = true ∨ s.rollout.step = .idle →
        (step cfg host disk pending s).ops = []) := by
  have nothing : Reverts [] := fun op mem => (by cases mem)
  unfold step
  split
  · exact ⟨nothing, fun _ => rfl⟩
  · rename_i here; exact absurd here notRender
  · rename_i here
    rw [(@lintStep_sound cfg host disk s sound here).1]
    exact ⟨nothing, fun _ => rfl⟩
  · rename_i here
    rw [(@plan_sound cfg host disk s sound here).1]
    exact ⟨nothing, fun _ => rfl⟩
  · rename_i here
    rw [(@pull_sound cfg host disk s sound here).1]
    exact ⟨nothing, fun _ => rfl⟩
  · rename_i here
    obtain ⟨reverts, none, -⟩ := @replace_sound cfg host disk s _ _ sound here
    refine ⟨reverts, ?_⟩
    rintro (uses | idle)
    · exact none uses
    · rw [here] at idle
      cases idle
  · rename_i here
    rw [(@guard_sound cfg host disk s _ sound here).1]
    exact ⟨nothing, fun _ => rfl⟩
  · rename_i here; exact absurd here notCommit
  · rename_i here
    refine ⟨(revert_sound sound here).1, ?_⟩
    rintro (uses | idle)
    · rw [here] at uses
      cases uses
    · rw [here] at idle
      cases idle

/-! ## Broken off, and saved before -/

theorem after_reverts {ops : List Op} (reverts : Reverts ops) (disk : Disk) :
    (disk.after ops).lastGood = disk.lastGood ∧
      ((disk.after ops).staging = disk.staging ∨ (disk.after ops).staging = none) := by
  refine ⟨after_spares (fun op mem => (reverts op mem).1) disk, ?_⟩
  induction ops generalizing disk with
  | nil => exact Or.inl rfl
  | cons op rest ih =>
      have later := ih (fun other mem => reverts other (List.mem_cons_of_mem _ mem)) (op.run disk)
      rcases (reverts op List.mem_cons_self).2 with spares | rfl
      · have same : (op.run disk).staging = disk.staging := @run_spares op .staging spares disk
        rw [same] at later
        exact later
      · rcases later with gone | gone
        · exact Or.inr gone
        · exact Or.inr gone

theorem Reverts.take {ops : List Op} (reverts : Reverts ops) (done : Nat) :
    Reverts (ops.take done) := fun op mem => reverts op (List.mem_of_mem_take mem)

/-- `last-good/` is as it was, and `staging/` is as it was or gone: a state that is not at its
commit is as sound as before. -/
theorem Sound.reverted (sound : Sound cfg s disk) (notCommit : s.rollout.step ≠ .commit)
    {ops : List Op} (reverts : Reverts ops) : Sound cfg s (disk.after ops) := by
  obtain ⟨good, staging⟩ := after_reverts reverts disk
  refine ⟨?_, ?_, fun commit => absurd commit notCommit⟩
  · rw [good]
    exact sound.good
  · intro uses
    rcases staging with same | gone
    · rw [same]
      exact sound.staged uses
    · exact Or.inl gone

/-- The steps that a saved round cannot take if `staging/` was written meanwhile. -/
def needsStaging (step : Step) : Bool := usesStaging step || step = .commit

/-- Operations of the step are through, and the state that goes with them is not saved: a render,
while the saved round still needs what it wrote over, or a commit whose step was not saved. -/
def Torn (saved : State) (step : Step) (ops : List Op) : Prop :=
  ops ≠ [] ∧ (step = .render ∧ needsStaging saved.rollout.step = true ∨
    step = .commit ∧ saved.rollout.step ≠ .commit)

section Broken

variable {pending : Option Target}

/-- The state in memory, when its step broke off. -/
theorem broken_sound (sound : Sound cfg s disk) (done : Nat) :
    Sound cfg s (disk.after ((step cfg host disk pending s).ops.take done)) := by
  by_cases render : s.rollout.step = .render
  · have spares : ∀ op ∈ (step cfg host disk pending s).ops.take done,
        op.touches .lastGood = false := by
      intro op mem
      have inOps := List.mem_of_mem_take mem
      unfold step at inOps
      rw [render] at inOps
      exact render_spares op inOps
    have good : (disk.after ((step cfg host disk pending s).ops.take done)).lastGood =
        disk.lastGood := after_spares spares disk
    refine ⟨?_, ?_, ?_⟩
    · rw [good]
      exact sound.good
    · intro uses
      rw [render] at uses
      cases uses
    · intro commit
      rw [render] at commit
      cases commit
  by_cases commits : s.rollout.step = .commit
  · refine ⟨fun notCommit => absurd commits notCommit, ?_, ?_⟩
    · intro uses
      rw [commits] at uses
      cases uses
    · intro _
      obtain ⟨release, names, committable⟩ := sound.commits commits
      obtain ⟨ops, files, opsAre, -⟩ := @commit_spec cfg host disk s release names committable
      refine ⟨release, names, ?_⟩
      have stepIs : (step cfg host disk pending s).ops = ops := by
        unfold step
        rw [commits]
        exact opsAre
      rw [stepIs]
      exact committable_take committable files done
  · obtain ⟨reverts, none⟩ := @step_reverts cfg host disk s pending sound render commits
    exact sound.reverted commits (reverts.take done)

/-- What `state.json` holds, when the step of the state in memory ran or broke off. -/
theorem saved_sound {saved : State} (sound : Sound cfg s disk) (kept : Sound cfg saved disk)
    (apart : saved.rollout.step = .commit →
      s.rollout.step = .commit ∨ s.rollout.step = .idle ∨ s.rollout.step = .render)
    (done : Nat)
    (whole : ¬ Torn saved s.rollout.step ((step cfg host disk pending s).ops.take done)) :
    Sound cfg saved (disk.after ((step cfg host disk pending s).ops.take done)) := by
  by_cases nothing : (step cfg host disk pending s).ops.take done = []
  · rw [nothing]
    exact kept
  by_cases render : s.rollout.step = .render
  · -- The saved round has no use for what is written over.
    have free : needsStaging saved.rollout.step = false := by
      rw [← Bool.not_eq_true]
      intro needs
      exact whole ⟨nothing, Or.inl ⟨render, needs⟩⟩
    simp only [needsStaging, Bool.or_eq_false_iff, decide_eq_false_iff_not] at free
    have spares : ∀ op ∈ (step cfg host disk pending s).ops.take done,
        op.touches .lastGood = false := by
      intro op mem
      have inOps := List.mem_of_mem_take mem
      unfold step at inOps
      rw [render] at inOps
      exact render_spares op inOps
    have good : (disk.after ((step cfg host disk pending s).ops.take done)).lastGood =
        disk.lastGood := after_spares spares disk
    refine ⟨?_, ?_, fun commit => absurd commit free.2⟩
    · rw [good]
      exact kept.good
    · intro uses
      rw [free.1] at uses
      cases uses
  by_cases commits : s.rollout.step = .commit
  · have both : saved.rollout.step = .commit := by
      by_contra other
      exact whole ⟨nothing, Or.inr ⟨commits, other⟩⟩
    obtain ⟨release, names, committable⟩ := sound.commits commits
    obtain ⟨ops, files, opsAre, -⟩ := @commit_spec cfg host disk s release names committable
    obtain ⟨other, savedNames, savedCommittable⟩ := kept.commits both
    have stepIs : (step cfg host disk pending s).ops = ops := by
      unfold step
      rw [commits]
      exact opsAre
    refine ⟨fun notCommit => absurd both notCommit, ?_, ?_⟩
    · intro uses
      rw [both] at uses
      cases uses
    · intro _
      rw [stepIs]
      exact ⟨other, savedNames, committable_take savedCommittable files done⟩
  · obtain ⟨reverts, none⟩ := @step_reverts cfg host disk s pending sound render commits
    have notCommit : saved.rollout.step ≠ .commit := by
      intro commit
      rcases apart commit with same | idle | same
      · exact commits same
      · refine nothing ?_
        rw [none (Or.inr idle)]
        exact List.take_nil
      · exact render same
    exact kept.reverted notCommit (reverts.take done)

end Broken

/-! ## Ticks and restarts -/

section Ticks

variable {w : World} {p : Process}

theorem Sound.same (sound : Sound cfg s disk) (rollout : t.rollout = s.rollout)
    (applied : t.applied = s.applied) : Sound cfg t disk := by
  refine ⟨?_, ?_, ?_⟩
  · rw [rollout, applied]
    exact sound.good
  · rw [rollout]
    exact sound.staged
  · rw [rollout]
    exact sound.commits

theorem acting_sound (targeted : Targeted p.state) (sound : Sound cfg p.state p.disk) :
    Sound cfg (acting cfg w p).state (acting cfg w p).disk := by
  have applied := @acting_applied cfg w p targeted
  rw [acting_disk p targeted]
  rcases @acting_rollout cfg w p targeted with same | ⟨render, preempts⟩
  · exact sound.same same applied
  · have notCommit : p.state.rollout.step ≠ .commit := by
      intro commit
      rw [commit] at preempts
      rcases preempts with idle | early
      · cases idle
      · cases early
    refine ⟨?_, ?_, ?_⟩
    · rw [applied]
      exact fun _ => sound.good notCommit
    · intro uses
      rw [render] at uses
      cases uses
    · intro commit
      rw [render] at commit
      cases commit

theorem workOf_sound (sound : Sound cfg p.state p.disk) :
    Sound cfg (workOf cfg w p).state (p.disk.after (workOf cfg w p).ops) := by
  unfold workOf
  split
  · exact sound
  · exact step_sound _ sound

theorem workOf_broken (sound : Sound cfg p.state p.disk) (done : Nat) :
    Sound cfg p.state (p.disk.after ((workOf cfg w p).ops.take done)) := by
  unfold workOf
  split
  · show Sound cfg p.state (p.disk.after (([] : List Op).take done))
    rw [List.take_nil]
    exact sound
  · exact broken_sound sound done

theorem workOf_saved {saved : State} (sound : Sound cfg p.state p.disk)
    (kept : Sound cfg saved p.disk)
    (apart : saved.rollout.step = .commit → p.state.rollout.step = .commit ∨
      p.state.rollout.step = .idle ∨ p.state.rollout.step = .render)
    (done : Nat)
    (whole : ¬ Torn saved p.state.rollout.step ((workOf cfg w p).ops.take done)) :
    Sound cfg saved (p.disk.after ((workOf cfg w p).ops.take done)) := by
  unfold workOf at whole ⊢
  split
  · show Sound cfg saved (p.disk.after (([] : List Op).take done))
    rw [List.take_nil]
    exact kept
  · rename_i stays
    rw [if_neg stays] at whole
    exact saved_sound sound kept apart done whole

theorem closing_sound {saved : State} (sound : Sound cfg p.state p.disk)
    (kept : Sound cfg saved p.disk) :
    Sound cfg (closing w p).state (closing w p).disk ∧ Sound cfg saved (closing w p).disk := by
  have quiet := closing_quiet (w := w) p
  rw [quiet.disk]
  exact ⟨sound.same quiet.rollout quiet.trust.applied, kept⟩

theorem resume_sound (sound : Sound cfg s disk) (now : Int) : Sound cfg (resume s now) disk := by
  have again : ∀ {step : Step}, s.rollout.step ≠ .commit → step ≠ .commit →
      usesStaging step = usesStaging s.rollout.step →
      Sound cfg { s with rollout := { s.rollout with step := step } } disk := by
    intro step notCommit other uses
    refine sound.moved notCommit rfl rfl ?_ (fun commit => absurd commit other)
    intro used
    rw [← uses]
    exact used
  unfold resume
  split
  · rename_i files _ step
    refine again (by rw [step]; exact fun same => nomatch same) (fun same => nomatch same) ?_
    rw [step]
    cases files <;> rfl
  · rename_i files _ step
    refine again (by rw [step]; exact fun same => nomatch same) (fun same => nomatch same) ?_
    rw [step]
    cases files <;> rfl
  · rename_i step
    refine again (by rw [step]; exact fun same => nomatch same) (fun same => nomatch same) ?_
    rw [step]
    rfl
  · exact sound

/-- What holds between two events. -/
structure Whole (cfg : Config) (p : Process) : Prop where
  trusted : Trusted cfg p
  state : Sound cfg p.state p.disk
  saved : Sound cfg p.saved p.disk
  /-- While a commit is saved, memory is at that commit, or past it and not yet past the render of
  a next round. -/
  apart : p.saved.rollout.step = .commit → p.state.rollout.step = .commit ∨
    p.state.rollout.step = .idle ∨ p.state.rollout.step = .render

theorem whole_fresh : Whole cfg Process.fresh := by
  have sound : Sound cfg State.fresh ⟨none, none, []⟩ :=
    Sound.isOver rfl (fun _ runs => (by cases runs))
  exact ⟨trusted_fresh, sound, sound, fun commit => (by cases commit)⟩

/-- The event's step tears what the saved round needs. -/
def Tears (cfg : Config) (p : Process) : Event → Prop
  | .unsaved w done | .dies w done _ =>
      Torn p.saved (acting cfg w p).state.rollout.step
        ((workOf cfg w (acting cfg w p)).ops.take done)
  | .tick _ | .restart _ => False

theorem acting_apart (whole : Whole cfg p) (commit : p.saved.rollout.step = .commit) :
    (acting cfg w p).state.rollout.step = .commit ∨
      (acting cfg w p).state.rollout.step = .idle ∨
      (acting cfg w p).state.rollout.step = .render := by
  rcases @acting_rollout cfg w p whole.trusted.state.targeted with same | ⟨render, -⟩
  · rw [same]
    exact whole.apart commit
  · exact Or.inr (Or.inr render)

/-- A render that wrote nothing gave up. -/
theorem render_nothing {pending : Option Target}
    (nothing : (render cfg host disk pending s).ops = []) :
    (render cfg host disk pending s).state.rollout.step = .idle := by
  generalize shape : render cfg host disk pending s = work at nothing ⊢
  unfold render at shape
  split at shape
  · subst shape; rfl
  split at shape
  · subst shape; rfl
  dsimp only at shape
  split at shape
  · subst shape; rfl
  split at shape
  · subst shape
    cases nothing
  · subst shape; rfl

/-- From a commit, from a render that writes nothing, and from no round, a step leaves no round. -/
theorem workOf_idle (sound : Sound cfg p.state p.disk) (done : Nat) {saved : State}
    (commit : saved.rollout.step = .commit)
    (apart : p.state.rollout.step = .commit ∨ p.state.rollout.step = .idle ∨
      p.state.rollout.step = .render)
    (through : (workOf cfg w p).ops.length ≤ done)
    (whole : ¬ Torn saved p.state.rollout.step ((workOf cfg w p).ops.take done)) :
    (workOf cfg w p).state.rollout.step = .commit ∨ (workOf cfg w p).state.rollout.step = .idle ∨
      (workOf cfg w p).state.rollout.step = .render := by
  rw [List.take_of_length_le through] at whole
  clear through
  unfold workOf at whole ⊢
  split
  · exact apart
  rename_i stays
  rw [if_neg stays] at whole
  unfold step at whole ⊢
  rcases apart with commits | idle | render
  · obtain ⟨release, names, committable⟩ := sound.commits commits
    obtain ⟨-, -, -, -, isOver, -⟩ := @commit_spec cfg w.toHost p.disk p.state release names committable
    rw [commits]
    exact Or.inr (Or.inl isOver)
  · rw [idle]
    exact Or.inr (Or.inl idle)
  · rw [render] at whole ⊢
    refine Or.inr (Or.inl (render_nothing ?_))
    by_contra wrote
    refine whole ⟨wrote, Or.inl ⟨rfl, ?_⟩⟩
    rw [commit]
    rfl

theorem restarted_whole {time : Int} (trusted : Trusted cfg (restarted time p))
    (kept : Sound cfg p.saved p.disk) : Whole cfg (restarted time p) := by
  refine ⟨trusted, resume_sound kept time, kept, ?_⟩
  intro commit
  have same : (resume p.saved time).rollout.step = .commit := by
    have here : p.saved.rollout.step = .commit := commit
    unfold resume
    rw [here]
    exact here
  exact Or.inl same

theorem whole_next (whole : Whole cfg p) {e : Event} (spared : ¬ Tears cfg p e) :
    Whole cfg (p.next cfg e) := by
  have next := trusted_next whole.trusted e
  have targeted := whole.trusted.state.targeted
  -- What a tick broken off leaves, saved or not.
  have broken : ∀ (w : World) (done : Nat),
      ¬ Torn p.saved (acting cfg w p).state.rollout.step
        ((workOf cfg w (acting cfg w p)).ops.take done) →
      Sound cfg (brokenOff cfg w done p).state (brokenOff cfg w done p).disk ∧
        Sound cfg p.saved (brokenOff cfg w done p).disk ∧
        (p.saved.rollout.step = .commit →
          (brokenOff cfg w done p).state.rollout.step = .commit ∨
            (brokenOff cfg w done p).state.rollout.step = .idle ∨
            (brokenOff cfg w done p).state.rollout.step = .render) := by
    intro w done untorn
    have acted := acting_sound (w := w) targeted whole.state
    have keptActed : Sound cfg p.saved (acting cfg w p).disk := by
      rw [acting_disk p targeted]
      exact whole.saved
    have kept := workOf_saved (w := w) acted keptActed (acting_apart whole) done untorn
    unfold brokenOff
    split
    · rename_i through
      have all : (workOf cfg w (acting cfg w p)).ops.length ≤ done := of_decide_eq_true through
      have apart : p.saved.rollout.step = .commit → _ :=
        fun commit => workOf_idle acted done commit (acting_apart whole commit) all untorn
      rw [List.take_of_length_le all] at kept
      have closed := closing_sound (w := w) (p := performed (acting cfg w p)
        (workOf cfg w (acting cfg w p))) (workOf_sound acted) kept
      refine ⟨closed.1, closed.2, ?_⟩
      intro commit
      have same : (ticked cfg w p).state.rollout =
          (workOf cfg w (acting cfg w p)).state.rollout := (closing_quiet _).rollout
      rw [same]
      exact apart commit
    · have closed := closing_sound (w := w) (p := { acting cfg w p with
        disk := (acting cfg w p).disk.after ((workOf cfg w (acting cfg w p)).ops.take done) })
        (workOf_broken acted done) kept
      refine ⟨closed.1, closed.2, ?_⟩
      intro commit
      have same : (failedAfter cfg w done p).state.rollout = (acting cfg w p).state.rollout :=
        (closing_quiet _).rollout
      rw [same]
      exact acting_apart whole commit
  cases e with
  | tick w =>
      have acted := acting_sound (w := w) targeted whole.state
      have ticks := (closing_sound (w := w) (p := performed (acting cfg w p)
        (workOf cfg w (acting cfg w p))) (workOf_sound acted) (workOf_sound acted)).1
      exact ⟨next, ticks, ticks, Or.inl⟩
  | unsaved w done =>
      obtain ⟨state, saved, apart⟩ := broken w done spared
      have keeps : (brokenOff cfg w done p).saved = p.saved :=
        (advances_brokenOff w done whole.trusted.state).saved
      refine ⟨next, state, ?_, ?_⟩
      · show Sound cfg (brokenOff cfg w done p).saved (brokenOff cfg w done p).disk
        rw [keeps]
        exact saved
      · show (brokenOff cfg w done p).saved.rollout.step = .commit → _
        rw [keeps]
        exact apart
  | dies w done time =>
      obtain ⟨-, saved, -⟩ := broken w done spared
      have keeps : (brokenOff cfg w done p).saved = p.saved :=
        (advances_brokenOff w done whole.trusted.state).saved
      refine restarted_whole next ?_
      rw [keeps]
      exact saved
  | restart time => exact restarted_whole next whole.saved

/-- No event of the run tears what the saved round needs. -/
def Untorn (cfg : Config) : Process → List Event → Prop
  | _, [] => True
  | p, e :: rest => ¬ Tears cfg p e ∧ Untorn cfg (p.next cfg e) rest

theorem whole_run {events : List Event} (whole : Whole cfg p) (untorn : Untorn cfg p events) :
    Whole cfg (p.run cfg events) := by
  induction events generalizing p with
  | nil => exact whole
  | cons e rest ih => exact ih (whole_next whole untorn.1) untorn.2

/-- A commit that was saved, run again from what the disk holds, goes through. -/
theorem commit_again (whole : Whole cfg p) (saved : p.saved.rollout.step = .commit) (host : Host) :
    ∃ release, p.saved.rollout.target = some release ∧
      (commit host p.disk p.saved).state.applied = some release ∧
      (p.disk.after (commit host p.disk p.saved).ops).staging = none ∧
      Holding cfg release (p.disk.after (commit host p.disk p.saved).ops).lastGood := by
  obtain ⟨release, names, committable⟩ := whole.saved.commits saved
  obtain ⟨ops, -, opsAre, applied, -, gone, holding⟩ :=
    @commit_spec cfg host p.disk p.saved release names committable
  rw [opsAre]
  exact ⟨release, names, applied, gone, holding⟩

end Ticks

end OmarchyPool.Agent
