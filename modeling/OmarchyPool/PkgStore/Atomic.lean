/-
# OmarchyPool.PkgStore.Atomic -- a transaction is applied whole or not at all

Wherever the process dies and however often its recovery dies too, opening the store leaves what
was there before the transaction or what the transaction leaves when nothing interrupts it, where
the operations of its plan stand apart.  Without the condition a second operation on one path
overwrites the backup of the first, and the rollback puts the new entry back for the old.
-/
import Mathlib.Logic.Relation
import OmarchyPool.PkgStore.Undo

namespace OmarchyPool.PkgStore

open OmarchyPool.Lib

set_option autoImplicit false

/-! ## What a plan promises -/

section Planning

variable {t : Tables} {d : Disk}

/-- An operation is on a file's path, and creates it exactly where nothing was. -/
def Grounded (d : Disk) (p : Plan) : Prop :=
  ∀ op ∈ p.ops, isDir op.path = false ∧ (op.creates = true ↔ d.there op.path = false)

theorem isDir_pacnew (path : String) : isDir (path ++ ".pacnew") = false := by
  unfold isDir
  rw [String.toList_append, List.getLast?_append_of_ne_nil _ (by decide)]
  decide

theorem destinationFor_file {removing : List String} {m : Manifest} {path target : String}
    (lands : destinationFor t d removing m path = .ok target) (file : isDir path = false) :
    isDir target = false := by
  unfold destinationFor at lands
  split at lands
  · split at lands
    · split at lands
      · cases lands
        exact isDir_pacnew path
      · cases lands
        exact file
    · cases lands
  · split at lands
    · cases lands
    · cases lands
      exact file

theorem Grounded.add {p p' : Plan} {op : JournalEntry} (grounded : Grounded d p)
    (ops : p'.ops = p.ops ++ [op]) (file : isDir op.path = false)
    (fits : op.creates = true ↔ d.there op.path = false) : Grounded d p' := by
  intro other mem
  rw [ops] at mem
  rcases List.mem_append.mp mem with earlier | last
  · exact grounded other earlier
  · cases List.mem_singleton.mp last
    exact ⟨file, fits⟩

theorem planFile_grounded {removing : List String} {m : Manifest} {p p' : Plan} {path : String}
    (grounded : Grounded d p) (goes : planFile t d removing m p path = .ok p') : Grounded d p' := by
  unfold planFile at goes
  split at goes
  · cases goes
    exact grounded
  split at goes
  · cases goes
  rename_i meta_ _
  split at goes
  · cases goes
    exact grounded
  rename_i file
  split at goes
  · cases goes
  split at goes
  · cases goes
  rename_i target lands
  cases goes
  have isFile := destinationFor_file lands (Bool.eq_false_iff.mpr file)
  by_cases there : d.there target = true
  · have op : (if d.there target then JournalEntry.replaced target else .created target) =
        .replaced target := if_pos there
    refine @Grounded.add d p _ (.replaced target) grounded (congrArg (fun op => p.ops ++ [op]) op)
      isFile ⟨fun no => (by cases no), fun missing => ?_⟩
    rw [show d.there target = false from missing] at there
    cases there
  · have op : (if d.there target then JournalEntry.replaced target else .created target) =
        .created target := if_neg there
    exact @Grounded.add d p _ (.created target) grounded (congrArg (fun op => p.ops ++ [op]) op)
      isFile ⟨fun _ => Bool.eq_false_iff.mpr there, fun _ => rfl⟩

theorem planFiles_grounded {removing : List String} {m : Manifest} (paths : List String) {p p' : Plan}
    (grounded : Grounded d p) (goes : planFiles t d removing m paths p = .ok p') : Grounded d p' := by
  induction paths generalizing p with
  | nil =>
      cases goes
      exact grounded
  | cons path rest ih =>
      unfold planFiles at goes
      split at goes
      · cases goes
      · rename_i step
        exact ih (planFile_grounded grounded step) goes

theorem planRemovedFiles_grounded (paths : List String) {p : Plan} (grounded : Grounded d p) :
    Grounded d (planRemovedFiles d paths p) := by
  unfold planRemovedFiles
  induction paths generalizing p with
  | nil => exact grounded
  | cons path rest ih =>
      refine ih ?_
      unfold planRemovedFile
      split
      · split
        · exact grounded
        · exact grounded
      · rename_i file
        split
        · rename_i leaves
          refine @Grounded.add d p _ (.removed path) grounded rfl (Bool.eq_false_iff.mpr file)
            ⟨fun no => (by cases no), fun missing => ?_⟩
          rw [show d.there path = false from missing] at leaves
          cases leaves.2
        · exact grounded

theorem planInstalls_grounded {removing : List String} (ms : List Manifest) {p p' : Plan}
    (grounded : Grounded d p) (goes : planInstalls t d removing ms p = .ok p') : Grounded d p' := by
  induction ms generalizing p with
  | nil =>
      cases goes
      exact grounded
  | cons m rest ih =>
      unfold planInstalls at goes
      split at goes
      · cases goes
      · rename_i step
        exact ih (planRemovedFiles_grounded _ (planFiles_grounded m.files grounded step)) goes

theorem planRemovals_grounded (names : List String) {p p' : Plan} (grounded : Grounded d p)
    (goes : planRemovals t d names p = .ok p') : Grounded d p' := by
  induction names generalizing p with
  | nil =>
      cases goes
      exact grounded
  | cons name rest ih =>
      unfold planRemovals at goes
      split at goes
      · cases goes
      · exact ih (planRemovedFiles_grounded _ grounded) goes

theorem plan_grounded {r : Request} {p : Plan} (made : plan t d r = .ok p) : Grounded d p := by
  unfold plan at made
  split at made
  · cases made
  · rename_i installs
    have nothing : Grounded d Plan.empty := fun _ none => (by cases none)
    exact planRemovals_grounded r.removals (planInstalls_grounded r.installs nothing installs) made

end Planning

theorem Transaction.Planned.unblocked {T : Transaction} {p : Plan} (planned : T.Planned p)
    (clean : NoLeftovers T.before) (apart : Apart T.area T.staged p) : Unblocked T.staged p := by
  intro l mem
  refine ⟨?_, ?_⟩
  · rw [apart.staged mem planned.unpacked (within_backup l)]
    exact (clean l).1
  · rw [apart.staged mem planned.unpacked (within_draft l)]
    exact (clean l).2

theorem Transaction.Planned.setting {T : Transaction} {p : Plan} (planned : T.Planned p)
    (free : Unblocked T.staged p) (apart : Apart T.area T.staged p) : Setting T.area T.staged p where
  apart := apart
  clean := free
  creates := by
    intro op mem l found
    obtain ⟨file, fits⟩ := plan_grounded planned.made op mem
    rw [fits]
    show existsNoFollow T.staged op.path = false ↔ _
    unfold existsNoFollow
    rw [if_neg (by rw [file]; exact nofun), found]
    exact Option.isSome_eq_false_iff.trans Option.isNone_iff_eq_none

/-! ## Whole or not at all -/

namespace Transaction

variable {T : Transaction}

/-- The store when nothing interrupts the transaction. -/
def Applied (T : Transaction) (s : Store) : Prop := ∃ s₀, T.Commits s₀ ∧ Opens T.area s₀ s

/-- What is known of the store between the transaction's last step and the end of a recovery. -/
inductive Midway (T : Transaction) : Store → Prop where
  | untouched : Midway T ⟨T.before, T.tables, none⟩
  | staging {fs : Files} (same : entriesOutside T.area fs = entriesOutside T.area T.before) :
      Midway T ⟨fs, T.tables, some ⟨.staging, [], []⟩⟩
  | applying {p : Plan} {fs : Files} (planned : T.Planned p) (setting : Setting T.area T.staged p)
      (between : Between T.area T.staged p fs) : Midway T ⟨fs, T.tables, some (p.record .applying)⟩
  | committed {p : Plan} {applied fs : Files} (planned : T.Planned p)
      (setting : Setting T.area T.staged p)
      (whole : runSteps (applySteps T.staging p) T.staged = some applied)
      (cleaned : Cleaned T.area T.staged applied p [] fs) :
      Midway T ⟨fs, commitState T.tables T.request p T.now, some (p.record .committed)⟩

theorem Leaves.midway {s : Store} (leaves : T.Leaves s) (clean : NoLeftovers T.before)
    (apart : ∀ p, T.Planned p → Apart T.area T.staged p) : T.Midway s := by
  cases leaves with
  | untouched => exact .untouched
  | staging unpacking => exact .staging (stages_entries unpacking)
  | applying planned stopped =>
      have setting := planned.setting (planned.unblocked clean (apart _ planned)) (apart _ planned)
      exact .applying planned setting
        ((applySteps_safe setting T.staging).stops _ _ (.start setting) stopped)
  | committed commits =>
      obtain ⟨planned, whole⟩ := commits
      have setting := planned.setting (planned.unblocked clean (apart _ planned)) (apart _ planned)
      exact .committed planned setting whole
        ⟨sheds_of_eq rfl, fun _ none => by cases none⟩

theorem between_applied {p : Plan} {applied : Files} (setting : Setting T.area T.staged p)
    (whole : runSteps (applySteps T.staging p) T.staged = some applied) :
    Between T.area T.staged p applied :=
  (applySteps_safe setting T.staging).ends _ _ (.start setting) whole

theorem Midway.recovers {s s' : Store} (midway : T.Midway s) (recovers : Recovers T.area s s') :
    T.Midway s' := by
  cases midway with
  | untouched => cases recovers
  | staging same =>
      cases recovers with
      | stops stopped =>
          obtain ⟨k, ran⟩ := stopped
          rw [show recoverySteps ⟨.staging, [], []⟩ = [] from rfl, List.take_nil] at ran
          cases ran
          exact .staging same
      | unstages all removing =>
          cases all
          exact .staging ((stages_entries removing).trans same)
  | applying planned setting between =>
      cases recovers with
      | stops stopped =>
          exact .applying planned setting ((rollbackSteps_safe setting).stops _ _ between stopped)
      | unstages all removing =>
          have undone := (rollbackSteps_safe setting).ends _ _ between all
          exact .applying planned setting (undone.1.stages setting.apart removing)
  | committed planned setting whole cleaned =>
      have safe := cleanupSteps_safe setting.apart (between_applied setting whole)
      cases recovers with
      | stops stopped => exact .committed planned setting whole (safe.stops _ _ cleaned stopped)
      | unstages all removing =>
          have done := safe.ends _ _ cleaned all
          refine .committed planned setting whole ⟨?_, fun _ none => by cases none⟩
          exact done.1.trans (sheds_of_eq (stages_entries removing))

theorem Midway.opens {s s' : Store} (midway : T.Midway s) (opens : Opens T.area s s') :
    SameStore T.area s' ⟨T.before, T.tables, none⟩ ∨
      ∃ applied, T.Applied applied ∧ SameStore T.area s' applied := by
  cases midway with
  | untouched =>
      cases opens
      exact Or.inl ⟨rfl, rfl⟩
  | staging same =>
      cases opens with
      | recovered all removing =>
          cases all
          exact Or.inl ⟨(stages_entries removing).trans same, rfl⟩
  | applying planned setting between =>
      cases opens with
      | recovered all removing =>
          have undone := (rollbackSteps_safe setting).ends _ _ between all
          refine Or.inl ⟨?_, rfl⟩
          exact (stages_entries removing).trans
            ((undone.entries setting).trans (stages_entries planned.unpacked))
  | committed planned setting whole cleaned =>
      have safe := cleanupSteps_safe setting.apart (between_applied setting whole)
      cases opens with
      | recovered all removing =>
          have done := safe.ends _ _ cleaned all
          rename_i p applied fs fs' fs''
          obtain ⟨alone, ran⟩ := cleanupSteps_total p.ops p.pruneDirs applied
          have clean := safe.ends _ _ ⟨sheds_of_eq rfl, fun _ none => by cases none⟩ ran
          refine Or.inr ⟨_, ⟨_, .whole planned whole, .recovered ran fun _ _ => Or.inl rfl⟩, ?_, rfl⟩
          exact (stages_entries removing).trans (done.entries clean)

end Transaction

theorem transaction_atomic (T : Transaction) (clean : NoLeftovers T.before)
    (apart : ∀ p, T.Planned p → Apart T.area T.staged p) {s s' s'' : Store} (leaves : T.Leaves s)
    (recovers : Relation.ReflTransGen (Recovers T.area) s s') (opens : Opens T.area s' s'') :
    SameStore T.area s'' ⟨T.before, T.tables, none⟩ ∨
      ∃ applied, T.Applied applied ∧ SameStore T.area s'' applied := by
  have midway : T.Midway s' := by
    clear opens
    induction recovers with
    | refl => exact leaves.midway clean apart
    | tail _ again ih => exact ih.recovers again
  exact midway.opens opens

/-! ## A configuration file and its new version -/

/-- Every entry is in a directory. -/
def RootedEntries (entries : OrderedMap Loc (Entry String)) : Prop :=
  ∀ e ∈ entries, e.1 ≠ [] ∧ (e.1.dropLast = [] ∨ entries.get e.1.dropLast = some .dir)

instance (entries : OrderedMap Loc (Entry String)) : Decidable (RootedEntries entries) := by
  unfold RootedEntries
  infer_instance

/-- The tree of some entries below the root. -/
def treeOf (entries : OrderedMap Loc (Entry String)) (rooted : RootedEntries entries) : Files where
  entry loc := if loc = [] then some .dir else entries.get loc
  names := [] :: entries.map Prod.fst
  finite := by
    intro loc there
    split at there
    · rename_i root
      exact root ▸ List.mem_cons_self
    · obtain ⟨e, found⟩ := Option.ne_none_iff_exists'.mp there
      exact List.mem_cons_of_mem _ (List.mem_map.mpr ⟨_, OrderedMap.mem_of_get found, rfl⟩)
  root := rfl
  rooted := by
    intro loc name there
    rw [if_neg (List.append_ne_nil_of_right_ne_nil _ (List.cons_ne_nil _ _))] at there
    obtain ⟨e, found⟩ := Option.ne_none_iff_exists'.mp there
    rcases (rooted _ (OrderedMap.mem_of_get found)).2 with top | dir
    · rw [List.dropLast_concat] at top
      rw [if_pos top]
    · rw [List.dropLast_concat] at dir
      split
      · rfl
      · exact dir

theorem entry_treeOf {entries : OrderedMap Loc (Entry String)} {rooted : RootedEntries entries}
    {loc : Loc} (there : (treeOf entries rooted).entry loc ≠ none) :
    loc = [] ∨ ∃ e, (loc, e) ∈ entries := by
  by_cases root : loc = []
  · exact Or.inl root
  · refine Or.inr ?_
    have found : OrderedMap.get loc entries ≠ none := by
      intro none
      exact there (by show (if loc = [] then _ else _) = _; rw [if_neg root, none])
    obtain ⟨e, here⟩ := Option.ne_none_iff_exists'.mp found
    exact ⟨e, OrderedMap.mem_of_get here⟩

theorem noLeftovers_treeOf {entries : OrderedMap Loc (Entry String)} (rooted : RootedEntries entries)
    (plain : ∀ e ∈ entries, ¬ oldSuffix.toList <:+ (e.1.getLastD "").toList ∧
      ¬ newSuffix.toList <:+ (e.1.getLastD "").toList) : NoLeftovers (treeOf entries rooted) := by
  have free : ∀ (loc : Loc) (suffix : String), (∀ e ∈ entries, ¬ suffix.toList <:+
      (e.1.getLastD "").toList) → (treeOf entries rooted).entry (sibling loc suffix) = none := by
    intro loc suffix none
    by_contra there
    rcases entry_treeOf there with root | ⟨e, mem⟩
    · exact List.append_ne_nil_of_right_ne_nil _ (List.cons_ne_nil _ _) root
    · refine none _ mem ?_
      show suffix.toList <:+ ((loc.dropLast ++ [loc.getLastD "" ++ suffix]).getLastD "").toList
      rw [List.getLastD_concat, String.toList_append]
      exact List.suffix_append _ _
  exact fun loc => ⟨free loc oldSuffix fun e mem => (plain e mem).1,
    free loc newSuffix fun e mem => (plain e mem).2⟩

theorem stages_treeOf {area : Loc} {base more : OrderedMap Loc (Entry String)}
    (rooted : RootedEntries base) (rooted' : RootedEntries (base ++ more))
    (inside : ∀ e ∈ more, area <+: e.1) :
    Stages area (treeOf base rooted) (treeOf (base ++ more) rooted') := by
  intro loc outside
  left
  have same : OrderedMap.get loc (base ++ more) = OrderedMap.get loc base := by
    clear rooted rooted'
    induction base with
    | nil =>
        show OrderedMap.get loc more = none
        by_contra there
        obtain ⟨e, found⟩ := Option.ne_none_iff_exists'.mp there
        exact outside (inside _ (OrderedMap.mem_of_get found))
    | cons entry rest ih =>
        show (if entry.1 = loc then _ else OrderedMap.get loc (rest ++ more)) =
          if entry.1 = loc then _ else OrderedMap.get loc rest
        rw [ih]
  show (if loc = [] then _ else OrderedMap.get loc (base ++ more)) =
    if loc = [] then _ else OrderedMap.get loc base
  rw [same]

def etcArea : Loc := ["var", "lib", "omarchy-cli", "staging"]

def etcEntries : OrderedMap Loc (Entry String) :=
  [(["etc"], .dir), (["etc", "c"], .file "mine"), (["etc", "c.pacnew"], .file "old"), (["var"], .dir),
    (["var", "lib"], .dir), (["var", "lib", "omarchy-cli"], .dir), (etcArea, .dir)]

def etcStaged : OrderedMap Loc (Entry String) :=
  [(etcArea ++ ["2"], .dir), (etcArea ++ ["2", "app"], .dir), (etcArea ++ ["2", "app", "etc"], .dir),
    (etcArea ++ ["2", "app", "etc", "c"], .file "new"),
    (etcArea ++ ["2", "app", "etc", "c.pacnew"], .file "newer")]

theorem etcEntries_rooted : RootedEntries etcEntries := by decide

theorem etcStaged_rooted : RootedEntries (etcEntries ++ etcStaged) := by decide

def appManifest (version : String) (files : List String) : Manifest :=
  ⟨"app", version, "", [], files, ["/etc/c"]⟩

def etcTables : Tables where
  packages := [("app", (⟨"app", "1", "", 0, appManifest "1" ["/etc/c", "/etc/c.pacnew"]⟩))]
  capabilities := []
  files := [("/etc/c", ⟨"app", 420, none⟩), ("/etc/c.pacnew", ⟨"app", 420, none⟩)]

/-- A package that ships a configuration file and, beside it, a file of the name its new version
gets; its upgrade, when the user has edited the first or not. -/
def etcUpgrade (files : List String) (edited : Bool) : Transaction where
  area := etcArea
  staging := etcArea ++ ["2"]
  request := Request.empty.install (appManifest "2" files)
  before := treeOf etcEntries etcEntries_rooted
  tables := etcTables
  staged := treeOf (etcEntries ++ etcStaged) etcStaged_rooted
  describe _ := ⟨420, none⟩
  modified path _ := edited && path == "/etc/c"
  now := 1

theorem etcUpgrade_clean (files : List String) (edited : Bool) :
    NoLeftovers (etcUpgrade files edited).before :=
  noLeftovers_treeOf etcEntries_rooted (by decide)

theorem etcUpgrade_unpacked (files : List String) (edited : Bool) :
    Stages etcArea (etcUpgrade files edited).before (etcUpgrade files edited).staged :=
  stages_treeOf etcEntries_rooted etcStaged_rooted (by decide)

/-- Both files of the upgrade go to the one name. -/
def etcEdited : Transaction := etcUpgrade ["/etc/c", "/etc/c.pacnew"] true

/-- The process dies before it commits, the rollback completes, and the new file stands where the
old one stood. -/
theorem backup_overwritten : ¬ ∀ T : Transaction, NoLeftovers T.before → ∀ s s' s'' : Store,
    T.Leaves s → Relation.ReflTransGen (Recovers T.area) s s' → Opens T.area s' s'' →
      SameStore T.area s'' ⟨T.before, T.tables, none⟩ ∨
        ∃ applied, T.Applied applied ∧ SameStore T.area s'' applied := by
  intro atomic
  have result : (plan etcEdited.tables etcEdited.disk etcEdited.request).toOption.map (fun p =>
      (runSteps (applySteps etcEdited.staging p ++ rollbackSteps p.ops) etcEdited.staged).map
        fun fs => fs.entry ["etc", "c.pacnew"]) = some (some (some (.file "newer"))) := by
    decide
  obtain ⟨p, made, ran⟩ := Option.map_eq_some_iff.mp result
  obtain ⟨fs', both, newer⟩ := Option.map_eq_some_iff.mp ran
  rw [runSteps_append] at both
  obtain ⟨fs, applied, rolledBack⟩ := Option.bind_eq_some_iff.mp both
  have planned : etcEdited.Planned p := by
    refine ⟨etcUpgrade_unpacked _ _, ?_⟩
    cases all : plan etcEdited.tables etcEdited.disk etcEdited.request with
    | error why => rw [all] at made; cases made
    | ok p' => rw [all] at made; cases made; rfl
  have stopped : Stopped (applySteps etcEdited.staging p) etcEdited.staged fs :=
    ⟨(applySteps etcEdited.staging p).length, by rw [List.take_length]; exact applied⟩
  have opens : Opens etcArea ⟨fs, etcTables, some (p.record .applying)⟩ ⟨fs', etcTables, none⟩ :=
    .recovered rolledBack fun _ _ => Or.inl rfl
  rcases atomic etcEdited (etcUpgrade_clean _ _) _ _ _ (.applying planned stopped) .refl opens with
    before | ⟨s, ⟨s₀, commits, opens⟩, same⟩
  · have differs := congrFun before.1 ["etc", "c.pacnew"]
    unfold entriesOutside at differs
    dsimp only at differs
    rw [newer] at differs
    revert differs
    decide
  · have tables := same.2
    have version : ∀ s₀, etcEdited.Commits s₀ → s₀.tables.packages ≠ etcTables.packages := by
      rintro _ ⟨-, -⟩
      show ((etcEdited.request.installs.foldl (insertNew 1)
        ((gone etcTables etcEdited.request).foldl dropOld etcTables)).packages) ≠ _
      decide
    have kept : s.tables = s₀.tables := by
      cases opens
      · rfl
      · rfl
    rw [kept] at tables
    exact version s₀ commits (congrArg Tables.packages tables.symm)

/-- The upgrade of a file that nobody edited. -/
def etcPlain : Transaction := etcUpgrade ["/etc/c"] false

def etcPlan : Plan where
  ops := [.replaced "/etc/c", .removed "/etc/c.pacnew"]
  sources := [("/etc/c", ⟨"app", "/etc/c"⟩)]
  dirs := []
  pruneDirs := []
  tracked := [("/etc/c", ⟨"app", 420, none⟩)]
  pacnew := []
  claimed := [("/etc/c", "app")]

theorem etcPlain_planned : etcPlain.Planned etcPlan :=
  ⟨etcUpgrade_unpacked _ _, by decide⟩

theorem etcPlain_apart : Apart etcPlain.area etcPlain.staged etcPlan where
  ways := by decide
  dirs := by decide
  parents := by decide
  names := by decide
  staging := by decide
  once := by decide

/-- It dies when the old file is aside, and a recovery dies after its first step. -/
theorem transaction_atomic_upgrade : ∃ s s' s'' : Store, etcPlain.Leaves s ∧
    Relation.ReflTransGen (Recovers etcPlain.area) s s' ∧ Opens etcPlain.area s' s'' ∧
      (SameStore etcPlain.area s'' ⟨etcPlain.before, etcPlain.tables, none⟩ ∨
        ∃ applied, etcPlain.Applied applied ∧ SameStore etcPlain.area s'' applied) := by
  have runs : (((runSteps ((applySteps etcPlain.staging etcPlan).take 1) etcPlain.staged).bind
      (runSteps ((rollbackSteps etcPlan.ops).take 1))).bind
        (runSteps (rollbackSteps etcPlan.ops))).isSome = true := by decide
  obtain ⟨fs'', ran⟩ := Option.isSome_iff_exists.mp runs
  obtain ⟨fs', both, completed⟩ := Option.bind_eq_some_iff.mp ran
  obtain ⟨fs, applied, again⟩ := Option.bind_eq_some_iff.mp both
  have leaves : etcPlain.Leaves ⟨fs, etcPlain.tables, some (etcPlan.record .applying)⟩ :=
    .applying etcPlain_planned ⟨1, applied⟩
  have recovers : Recovers etcPlain.area ⟨fs, etcPlain.tables, some (etcPlan.record .applying)⟩
      ⟨fs', etcPlain.tables, some (etcPlan.record .applying)⟩ := .stops ⟨1, again⟩
  have opens : Opens etcPlain.area ⟨fs', etcPlain.tables, some (etcPlan.record .applying)⟩
      ⟨fs'', etcPlain.tables, none⟩ := .recovered completed fun _ _ => Or.inl rfl
  have apart : ∀ p, etcPlain.Planned p → Apart etcPlain.area etcPlain.staged p := by
    intro p planned
    have same := planned.made.symm.trans etcPlain_planned.made
    cases same
    exact etcPlain_apart
  exact ⟨_, _, _, leaves, .single recovers, opens,
    transaction_atomic etcPlain (etcUpgrade_clean _ _) apart leaves (.single recovers) opens⟩

end OmarchyPool.PkgStore
