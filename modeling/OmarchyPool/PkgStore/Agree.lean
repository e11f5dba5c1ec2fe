/-
# OmarchyPool.PkgStore.Agree -- the three tables say the same

Every tracked row belongs to an installed package whose manifest lists its path, every file of an
installed manifest has its one row, and the capabilities are those the installed manifests
provide.  What a plan that was not refused knows of the tables is one lemma, and what a commit
leaves of each table another; a committed transaction keeps the agreement by the two.
-/
import OmarchyPool.PkgStore.Plan

namespace OmarchyPool.PkgStore

open OmarchyPool.Lib

set_option autoImplicit false

/-- A path that is installed as a file. -/
def Tracks (path : String) : Prop := isDir path = false ∧ isMetadata path = false

/-- The tables agree. -/
structure Agree (t : Tables) : Prop where
  names : ∀ name pkg, t.packages.get name = some pkg → pkg.name = name
  /-- The owner of a row is installed, and its manifest lists the path. -/
  owned : ∀ path row, t.files.get path = some row →
    ∃ pkg, t.packages.get row.owner = some pkg ∧ path ∈ pkg.manifest.files ∧ Tracks path
  /-- A file of an installed manifest has a row, and the package owns it. -/
  tracked : ∀ name pkg, t.packages.get name = some pkg → ∀ path ∈ pkg.manifest.files,
    Tracks path → ∃ row, t.files.get path = some row ∧ row.owner = name
  /-- No path has two rows. -/
  once : t.files.Valid
  provided : ∀ capability name, (capability, name) ∈ t.capabilities ↔
    ∃ pkg, t.packages.get name = some pkg ∧ capability ∈ pkg.manifest.provides

theorem agree_empty : Agree .empty where
  names := fun _ _ found => (by cases found)
  owned := fun _ _ found => (by cases found)
  tracked := fun _ _ found => (by cases found)
  once := List.nodup_nil
  provided := fun _ _ => ⟨fun mem => (by cases mem), fun ⟨_, found, _⟩ => (by cases found)⟩

/-! ## What a plan knows -/

section Plans

variable {t : Tables} {d : Disk} {removing : List String}

/-- The row a package takes over is its own, or that of a package that is removed, or there is
none. -/
def Takes (t : Tables) (removing : List String) (owner path : String) : Prop :=
  ∀ row, t.files.get path = some row → row.owner = owner ∨ row.owner ∈ removing

/-- What the rows of a plan are, when it has gone over the files of `ms` and, of one more package,
those in `paths`. -/
structure Covers (t : Tables) (removing : List String) (owners : List (String × List String))
    (plan : Plan) : Prop where
  /-- Each row is of a file of one of them, and takes over nobody else's. -/
  rows : ∀ path row, (path, row) ∈ plan.tracked → Tracks path ∧ Takes t removing row.owner path ∧
    ∃ files, (row.owner, files) ∈ owners ∧ path ∈ files
  all : ∀ owner files, (owner, files) ∈ owners → ∀ path ∈ files, Tracks path →
    ∃ row, (path, row) ∈ plan.tracked ∧ row.owner = owner
  claimed : ∀ path row, (path, row) ∈ plan.tracked → plan.claimed.get path ≠ none
  distinct : (plan.tracked.map Prod.fst).Nodup

theorem destinationFor_takes {m : Manifest} {path target : String}
    (lands : destinationFor t d removing m path = .ok target) : Takes t removing m.name path := by
  intro row found
  unfold destinationFor at lands
  rw [found] at lands
  dsimp only at lands
  split at lands
  · assumption
  · cases lands

/-- What was gone over stays so when `name` goes over one more. -/
theorem member_wider {name owner path more : String} {done : List String}
    {owners : List (String × List String)}
    (known : ∃ files, (owner, files) ∈ (name, done) :: owners ∧ path ∈ files) :
    ∃ files, (owner, files) ∈ (name, done ++ [more]) :: owners ∧ path ∈ files := by
  obtain ⟨files, mem, inFiles⟩ := known
  rcases List.mem_cons.mp mem with same | later
  · obtain ⟨rfl, rfl⟩ := Prod.mk.inj same
    exact ⟨_, List.mem_cons_self, List.mem_append_left _ inFiles⟩
  · exact ⟨files, List.mem_cons_of_mem _ later, inFiles⟩

theorem planFile_covers {m : Manifest} {plan next : Plan} {path : String} {done : List String}
    {owners : List (String × List String)}
    (covers : Covers t removing ((m.name, done) :: owners) plan)
    (goes : planFile t d removing m plan path = .ok next) :
    Covers t removing ((m.name, done ++ [path]) :: owners) next := by
  -- The files gone over are one more; where it is no file, the rows are the same.
  have wider : ∀ {p : Plan}, p.tracked = plan.tracked → p.claimed = plan.claimed →
      ¬ Tracks path → Covers t removing ((m.name, done ++ [path]) :: owners) p := by
    intro p tracked claimed skipped
    refine ⟨?_, ?_, ?_, ?_⟩
    · rw [tracked]
      intro other row mem
      obtain ⟨isFile, takes, known⟩ := covers.rows other row mem
      exact ⟨isFile, takes, member_wider known⟩
    · rw [tracked]
      intro owner files mem other inFiles isFile
      rcases List.mem_cons.mp mem with same | later
      · cases same
        rcases List.mem_append.mp inFiles with earlier | last
        · exact covers.all _ _ List.mem_cons_self other earlier isFile
        · rw [List.mem_singleton.mp last] at isFile
          exact absurd isFile skipped
      · exact covers.all owner files (List.mem_cons_of_mem _ later) other inFiles isFile
    · rw [tracked, claimed]
      exact covers.claimed
    · rw [tracked]
      exact covers.distinct
  unfold planFile at goes
  split at goes
  · rename_i isMeta
    cases goes
    exact wider rfl rfl (fun isFile => by rw [isFile.2] at isMeta; cases isMeta)
  rename_i notMeta
  split at goes
  · cases goes
  rename_i meta_ _
  split at goes
  · rename_i dir
    cases goes
    exact wider rfl rfl (fun isFile => by rw [isFile.1] at dir; cases dir)
  rename_i notDir
  split at goes
  · cases goes
  rename_i unclaimed
  split at goes
  · cases goes
  rename_i target lands
  cases goes
  have isFile : Tracks path := ⟨Bool.eq_false_iff.mpr notDir, Bool.eq_false_iff.mpr notMeta⟩
  have fresh : path ∉ plan.tracked.map Prod.fst := by
    intro mem
    obtain ⟨⟨other, row⟩, inTracked, rfl⟩ := List.mem_map.mp mem
    exact covers.claimed other row inTracked unclaimed
  refine ⟨?_, ?_, ?_, ?_⟩
  · intro other row mem
    rcases List.mem_append.mp mem with earlier | last
    · obtain ⟨isFile, takes, known⟩ := covers.rows other row earlier
      exact ⟨isFile, takes, member_wider known⟩
    · cases List.mem_singleton.mp last
      exact ⟨isFile, destinationFor_takes lands, _, List.mem_cons_self,
        List.mem_append_right _ (List.mem_singleton_self _)⟩
  · intro owner files mem other inFiles tracks
    have earlier : ∀ {rows : List (String × TrackedFile)}, (∃ row, (other, row) ∈ rows ∧
        row.owner = owner) → ∃ row, (other, row) ∈ rows ++
          [(path, (⟨m.name, meta_.mode, meta_.sha256⟩ : TrackedFile))] ∧ row.owner = owner := by
      rintro rows ⟨row, inRows, owns⟩
      exact ⟨row, List.mem_append_left _ inRows, owns⟩
    rcases List.mem_cons.mp mem with same | later
    · cases same
      rcases List.mem_append.mp inFiles with before | last
      · exact earlier (covers.all _ _ List.mem_cons_self other before tracks)
      · rw [List.mem_singleton.mp last]
        exact ⟨_, List.mem_append_right _ (List.mem_singleton_self _), rfl⟩
    · exact earlier (covers.all owner files (List.mem_cons_of_mem _ later) other inFiles tracks)
  · intro other row mem
    show OrderedMap.get other (plan.claimed.set path m.name) ≠ none
    rw [OrderedMap.get_set]
    split
    · exact Option.some_ne_none _
    · rename_i differs
      rcases List.mem_append.mp mem with earlier | last
      · exact covers.claimed other row earlier
      · cases List.mem_singleton.mp last
        exact absurd rfl differs
  · show ((plan.tracked ++ [(path, _)]).map Prod.fst).Nodup
    rw [List.map_append, List.nodup_append]
    refine ⟨covers.distinct, List.nodup_singleton _, ?_⟩
    intro other inTracked last single same
    have isPath : other = path := same.trans (List.mem_singleton.mp single)
    exact fresh (isPath ▸ inTracked)

theorem planFiles_covers {m : Manifest} {owners : List (String × List String)} (todo : List String)
    {done : List String} {plan next : Plan}
    (covers : Covers t removing ((m.name, done) :: owners) plan)
    (goes : planFiles t d removing m todo plan = .ok next) :
    Covers t removing ((m.name, done ++ todo) :: owners) next := by
  induction todo generalizing done plan with
  | nil =>
      cases goes
      rw [List.append_nil]
      exact covers
  | cons path rest ih =>
      unfold planFiles at goes
      split at goes
      · cases goes
      · rename_i step
        have after := ih (planFile_covers covers step) goes
        rw [List.append_assoc] at after
        exact after

theorem planRemovedFiles_tracked (paths : List String) (plan : Plan) :
    (planRemovedFiles d paths plan).tracked = plan.tracked ∧
      (planRemovedFiles d paths plan).claimed = plan.claimed := by
  unfold planRemovedFiles
  induction paths generalizing plan with
  | nil => exact ⟨rfl, rfl⟩
  | cons path rest ih =>
      obtain ⟨tracked, claimed⟩ := ih (planRemovedFile d plan path)
      have step : (planRemovedFile d plan path).tracked = plan.tracked ∧
          (planRemovedFile d plan path).claimed = plan.claimed := by
        unfold planRemovedFile
        split
        · split <;> exact ⟨rfl, rfl⟩
        · split <;> exact ⟨rfl, rfl⟩
      exact ⟨tracked.trans step.1, claimed.trans step.2⟩

theorem Covers.same {owners : List (String × List String)} {plan next : Plan}
    (covers : Covers t removing owners plan) (tracked : next.tracked = plan.tracked)
    (claimed : next.claimed = plan.claimed) : Covers t removing owners next := by
  refine ⟨?_, ?_, ?_, ?_⟩
  · rw [tracked]
    exact covers.rows
  · rw [tracked]
    exact covers.all
  · rw [tracked, claimed]
    exact covers.claimed
  · rw [tracked]
    exact covers.distinct

/-- A package more, none of whose files were gone over. -/
theorem Covers.opens {owners : List (String × List String)} {plan : Plan}
    (covers : Covers t removing owners plan) (owner : String) :
    Covers t removing ((owner, []) :: owners) plan := by
  refine ⟨?_, ?_, covers.claimed, covers.distinct⟩
  · intro path row mem
    obtain ⟨isFile, takes, files, known, inFiles⟩ := covers.rows path row mem
    exact ⟨isFile, takes, files, List.mem_cons_of_mem _ known, inFiles⟩
  · intro other files mem path inFiles isFile
    rcases List.mem_cons.mp mem with same | later
    · cases same
      cases inFiles
    · exact covers.all other files later path inFiles isFile

theorem planInstalls_covers (ms : List Manifest) {owners : List (String × List String)}
    {plan next : Plan} (covers : Covers t removing owners plan)
    (goes : planInstalls t d removing ms plan = .ok next) :
    Covers t removing ((ms.map fun m => (m.name, m.files)).reverse ++ owners) next := by
  induction ms generalizing owners plan with
  | nil =>
      cases goes
      exact covers
  | cons m rest ih =>
      unfold planInstalls at goes
      split at goes
      · cases goes
      · rename_i after step
        have files := planFiles_covers m.files (covers.opens m.name) step
        obtain ⟨tracked, claimed⟩ := @planRemovedFiles_tracked d
          (dropped (t.packages.get m.name) m) after
        have whole := ih (files.same tracked claimed) goes
        rw [List.map_cons, List.reverse_cons, List.append_assoc]
        exact whole

theorem planRemovals_tracked (names : List String) {plan next : Plan}
    (goes : planRemovals t d names plan = .ok next) :
    next.tracked = plan.tracked ∧ next.claimed = plan.claimed := by
  induction names generalizing plan with
  | nil =>
      cases goes
      exact ⟨rfl, rfl⟩
  | cons name rest ih =>
      unfold planRemovals at goes
      split at goes
      · cases goes
      · rename_i pkg _
        obtain ⟨tracked, claimed⟩ := ih goes
        have step := @planRemovedFiles_tracked d pkg.manifest.files plan
        exact ⟨tracked.trans step.1, claimed.trans step.2⟩

/-- What a plan that was not refused knows. -/
theorem plan_covers {r : Request} {next : Plan} (goes : plan t d r = .ok next) :
    Covers t r.removals ((r.installs.map fun m => (m.name, m.files)).reverse) next := by
  unfold plan at goes
  split at goes
  · cases goes
  · rename_i between installs
    have nothing : Covers t r.removals [] Plan.empty :=
      ⟨fun _ _ mem => (by cases mem), fun _ _ mem => (by cases mem), fun _ _ mem => (by cases mem),
        List.nodup_nil⟩
    have covers := planInstalls_covers r.installs nothing installs
    rw [List.append_nil] at covers
    obtain ⟨tracked, claimed⟩ := planRemovals_tracked r.removals goes
    exact covers.same tracked claimed

end Plans

/-! ## What a commit leaves of each table -/

theorem get_dropRow (owner path other : String) (files : OrderedMap String TrackedFile)
    (row : TrackedFile) :
    (dropRow owner files path).get other = some row ↔
      files.get other = some row ∧ ¬ (other = path ∧ row.owner = owner) := by
  unfold dropRow
  split
  · rename_i held found
    split
    · rename_i owns
      rw [OrderedMap.get_delete]
      split
      · rename_i same
        subst same
        refine ⟨fun none => (by cases none), ?_⟩
        rintro ⟨again, apart⟩
        rw [found] at again
        cases again
        exact absurd ⟨rfl, owns⟩ apart
      · rename_i differs
        exact ⟨fun here => ⟨here, fun same => differs same.1.symm⟩, And.left⟩
    · rename_i others
      refine ⟨fun here => ⟨here, ?_⟩, And.left⟩
      rintro ⟨rfl, owns⟩
      rw [found] at here
      cases here
      exact others owns
  · rename_i none
    refine ⟨fun here => ⟨here, ?_⟩, And.left⟩
    rintro ⟨rfl, -⟩
    rw [none] at here
    cases here

theorem get_dropRows (owner other : String) (row : TrackedFile) (paths : List String)
    (files : OrderedMap String TrackedFile) :
    (paths.foldl (dropRow owner) files).get other = some row ↔
      files.get other = some row ∧ ¬ (other ∈ paths ∧ row.owner = owner) := by
  induction paths generalizing files with
  | nil => exact ⟨fun here => ⟨here, fun mem => (by cases mem.1)⟩, And.left⟩
  | cons path rest ih =>
      rw [List.foldl_cons, ih, get_dropRow]
      refine ⟨?_, ?_⟩
      · rintro ⟨⟨here, notFirst⟩, notRest⟩
        refine ⟨here, ?_⟩
        rintro ⟨mem, owns⟩
        rcases List.mem_cons.mp mem with same | later
        · exact notFirst ⟨same, owns⟩
        · exact notRest ⟨later, owns⟩
      · rintro ⟨here, apart⟩
        exact ⟨⟨here, fun same => apart ⟨List.mem_cons.mpr (Or.inl same.1), same.2⟩⟩,
          fun same => apart ⟨List.mem_cons_of_mem _ same.1, same.2⟩⟩

theorem valid_dropRows (owner : String) (paths : List String) {files : OrderedMap String TrackedFile}
    (valid : files.Valid) : (paths.foldl (dropRow owner) files).Valid := by
  induction paths generalizing files with
  | nil => exact valid
  | cons path rest ih =>
      refine ih ?_
      unfold dropRow
      split
      · split
        · exact valid.delete path
        · exact valid
      · exact valid

/-- What is left when the packages that go are dropped. -/
structure Dropped (t t' : Tables) (olds : List InstalledPackage) : Prop where
  packages : ∀ name pkg, t'.packages.get name = some pkg ↔
    t.packages.get name = some pkg ∧ ∀ old ∈ olds, old.name ≠ name
  capabilities : ∀ capability name, (capability, name) ∈ t'.capabilities ↔
    (capability, name) ∈ t.capabilities ∧
      ∀ old ∈ olds, ¬ (name = old.name ∧ capability ∈ old.manifest.provides)
  files : ∀ path row, t'.files.get path = some row ↔
    t.files.get path = some row ∧ ∀ old ∈ olds, ¬ (path ∈ old.manifest.files ∧ row.owner = old.name)
  once : t.files.Valid → t'.files.Valid

theorem dropped_one (t : Tables) (old : InstalledPackage) : Dropped t (dropOld t old) [old] where
  packages := by
    intro name pkg
    show (t.packages.delete old.name).get name = some pkg ↔ _
    rw [OrderedMap.get_delete]
    split
    · rename_i same
      refine ⟨fun none => (by cases none), ?_⟩
      rintro ⟨-, apart⟩
      exact absurd same (apart old (List.mem_singleton_self _))
    · rename_i differs
      refine ⟨fun here => ⟨here, ?_⟩, And.left⟩
      intro other mem
      rw [List.mem_singleton.mp mem]
      exact differs
  capabilities := by
    intro capability name
    show _ ∈ t.capabilities.filter _ ↔ _
    rw [List.mem_filter, List.forall_mem_singleton, decide_eq_true_iff]
  files := by
    intro path row
    rw [List.forall_mem_singleton]
    exact get_dropRows old.name path row old.manifest.files t.files
  once := valid_dropRows old.name old.manifest.files

theorem Dropped.trans {t t' t'' : Tables} {olds more : List InstalledPackage}
    (first : Dropped t t' olds) (second : Dropped t' t'' more) : Dropped t t'' (olds ++ more) where
  packages := by
    intro name pkg
    rw [second.packages, first.packages, and_assoc, List.forall_mem_append]
  capabilities := by
    intro capability name
    rw [second.capabilities, first.capabilities, and_assoc, List.forall_mem_append]
  files := by
    intro path row
    rw [second.files, first.files, and_assoc, List.forall_mem_append]
  once := fun valid => second.once (first.once valid)

theorem dropped_all (t : Tables) (olds : List InstalledPackage) :
    Dropped t (olds.foldl dropOld t) olds := by
  induction olds generalizing t with
  | nil =>
      refine ⟨?_, ?_, ?_, id⟩
      · exact fun _ _ => ⟨fun here => ⟨here, fun _ mem => (by cases mem)⟩, And.left⟩
      · exact fun _ _ => ⟨fun here => ⟨here, fun _ mem => (by cases mem)⟩, And.left⟩
      · exact fun _ _ => ⟨fun here => ⟨here, fun _ mem => (by cases mem)⟩, And.left⟩
  | cons old rest ih => exact (dropped_one t old).trans (ih (dropOld t old))

theorem mem_provides (name : String) (capability other : String) (provides : List String)
    (capabilities : List (String × String)) :
    (capability, other) ∈ provides.foldl (provide name) capabilities ↔
      (capability, other) ∈ capabilities ∨ other = name ∧ capability ∈ provides := by
  induction provides generalizing capabilities with
  | nil => exact ⟨Or.inl, fun either => either.elim id (fun mem => by cases mem.2)⟩
  | cons first rest ih =>
      have one : (capability, other) ∈ provide name capabilities first ↔
          (capability, other) ∈ capabilities ∨ other = name ∧ capability = first := by
        unfold provide
        split
        · rename_i known
          refine ⟨Or.inl, ?_⟩
          rintro (here | ⟨rfl, rfl⟩)
          · exact here
          · exact known
        · rw [List.mem_append, List.mem_singleton, Prod.mk.injEq, and_comm (a := other = name)]
      rw [List.foldl_cons, ih, one, List.mem_cons, or_assoc]
      refine or_congr_right ?_
      rw [and_or_left]

/-- The package of a manifest as it is inserted. -/
def Manifest.installedAt (m : Manifest) (now : Nat) : InstalledPackage :=
  ⟨m.name, m.version, m.sha256, now, m⟩

theorem insertNew_packages (now : Nat) (ms : List Manifest) (t : Tables)
    (distinct : (ms.map Manifest.name).Nodup) (name : String) (pkg : InstalledPackage) :
    (ms.foldl (insertNew now) t).packages.get name = some pkg ↔
      (∃ m ∈ ms, m.name = name ∧ pkg = m.installedAt now) ∨
        name ∉ ms.map Manifest.name ∧ t.packages.get name = some pkg := by
  induction ms generalizing t with
  | nil => simp
  | cons m rest ih =>
      obtain ⟨fresh, others⟩ := List.nodup_cons.mp distinct
      rw [List.foldl_cons, ih (insertNew now t m) others]
      show _ ∨ _ ∧ (t.packages.set m.name (m.installedAt now)).get name = some pkg ↔ _
      rw [OrderedMap.get_set]
      by_cases same : m.name = name
      · subst same
        rw [if_pos rfl]
        refine ⟨?_, ?_⟩
        · rintro (⟨other, mem, sameName, rfl⟩ | ⟨-, here⟩)
          · exact Or.inl ⟨other, List.mem_cons_of_mem _ mem, sameName, rfl⟩
          · exact Or.inl ⟨m, List.mem_cons_self, rfl, (Option.some.inj here).symm⟩
        · rintro (⟨other, mem, sameName, rfl⟩ | ⟨apart, -⟩)
          · rcases List.mem_cons.mp mem with rfl | later
            · exact Or.inr ⟨fresh, rfl⟩
            · exact Or.inl ⟨other, later, sameName, rfl⟩
          · exact absurd (List.mem_cons_self) apart
      · rw [if_neg same]
        refine ⟨?_, ?_⟩
        · rintro (⟨other, mem, sameName, rfl⟩ | ⟨apart, here⟩)
          · exact Or.inl ⟨other, List.mem_cons_of_mem _ mem, sameName, rfl⟩
          · refine Or.inr ⟨?_, here⟩
            rw [List.map_cons, List.mem_cons]
            rintro (first | later)
            · exact same first.symm
            · exact apart later
        · rintro (⟨other, mem, sameName, rfl⟩ | ⟨apart, here⟩)
          · rcases List.mem_cons.mp mem with rfl | later
            · exact absurd sameName same
            · exact Or.inl ⟨other, later, sameName, rfl⟩
          · exact Or.inr ⟨fun later => apart (List.mem_cons_of_mem _ later), here⟩

theorem insertNew_rest (now : Nat) (ms : List Manifest) (t : Tables) (capability name : String) :
    ((capability, name) ∈ (ms.foldl (insertNew now) t).capabilities ↔
      (capability, name) ∈ t.capabilities ∨
        ∃ m ∈ ms, m.name = name ∧ capability ∈ m.provides) ∧
      (ms.foldl (insertNew now) t).files = t.files := by
  induction ms generalizing t with
  | nil => simp
  | cons m rest ih =>
      obtain ⟨capabilities, files⟩ := ih (insertNew now t m)
      refine ⟨?_, files⟩
      rw [List.foldl_cons, capabilities]
      show (_ ∈ m.provides.foldl (provide m.name) t.capabilities ∨ _) ↔ _
      rw [mem_provides, or_assoc]
      refine or_congr_right ?_
      refine ⟨?_, ?_⟩
      · rintro (⟨rfl, provides⟩ | ⟨other, mem, rest⟩)
        · exact ⟨m, List.mem_cons_self, rfl, provides⟩
        · exact ⟨other, List.mem_cons_of_mem _ mem, rest⟩
      · rintro ⟨other, mem, sameName, provides⟩
        rcases List.mem_cons.mp mem with rfl | later
        · exact Or.inl ⟨sameName.symm, provides⟩
        · exact Or.inr ⟨other, later, sameName, provides⟩

theorem get_tracked (rows : List (String × TrackedFile)) (files : OrderedMap String TrackedFile)
    (distinct : (rows.map Prod.fst).Nodup) (path : String) (row : TrackedFile) :
    (rows.foldl (fun files row => files.set row.1 row.2) files).get path = some row ↔
      (path, row) ∈ rows ∨ path ∉ rows.map Prod.fst ∧ files.get path = some row := by
  induction rows generalizing files with
  | nil => simp
  | cons first rest ih =>
      obtain ⟨fresh, others⟩ := List.nodup_cons.mp distinct
      rw [List.foldl_cons, ih _ others, OrderedMap.get_set]
      by_cases same : first.1 = path
      · subst same
        rw [if_pos rfl]
        refine ⟨?_, ?_⟩
        · rintro (later | ⟨-, here⟩)
          · exact Or.inl (List.mem_cons_of_mem _ later)
          · refine Or.inl (List.mem_cons.mpr (Or.inl ?_))
            rw [← Option.some.inj here]
        · rintro (mem | ⟨apart, -⟩)
          · rcases List.mem_cons.mp mem with isFirst | later
            · exact Or.inr ⟨fresh, by rw [← isFirst]⟩
            · exact Or.inl later
          · exact absurd List.mem_cons_self apart
      · rw [if_neg same]
        refine ⟨?_, ?_⟩
        · rintro (later | ⟨apart, here⟩)
          · exact Or.inl (List.mem_cons_of_mem _ later)
          · refine Or.inr ⟨?_, here⟩
            rw [List.map_cons, List.mem_cons]
            rintro (isFirst | later)
            · exact same isFirst.symm
            · exact apart later
        · rintro (mem | ⟨apart, here⟩)
          · rcases List.mem_cons.mp mem with isFirst | later
            · rw [← isFirst] at same
              exact absurd rfl same
            · exact Or.inl later
          · exact Or.inr ⟨fun later => apart (List.mem_cons_of_mem _ later), here⟩

theorem valid_tracked (rows : List (String × TrackedFile)) {files : OrderedMap String TrackedFile}
    (valid : files.Valid) :
    (rows.foldl (fun files row => files.set row.1 row.2) files).Valid := by
  induction rows generalizing files with
  | nil => exact valid
  | cons first rest ih => exact ih (valid.set first.1 first.2)

/-! ## A committed transaction -/

section Commits

variable {t : Tables} {d : Disk} {r : Request} {now : Nat}

/-- The packages whose rows a transaction drops. -/
def Request.Leaves (r : Request) (name : String) : Prop :=
  name ∈ r.installs.map Manifest.name ∨ name ∈ r.removals

theorem mem_gone (old : InstalledPackage) :
    old ∈ gone t r ↔ ∃ name, r.Leaves name ∧ t.packages.get name = some old := by
  unfold gone Request.Leaves
  rw [List.mem_append, List.mem_filterMap, List.mem_filterMap]
  refine ⟨?_, ?_⟩
  · rintro (⟨m, mem, found⟩ | ⟨name, mem, found⟩)
    · exact ⟨m.name, Or.inl (List.mem_map_of_mem mem), found⟩
    · exact ⟨name, Or.inr mem, found⟩
  · rintro ⟨name, installed | removed, found⟩
    · obtain ⟨m, mem, rfl⟩ := List.mem_map.mp installed
      exact Or.inl ⟨m, mem, found⟩
    · exact Or.inr ⟨name, removed, found⟩

theorem Agree.mem_gone_of_leaves (agree : Agree t) {old : InstalledPackage} (goes : old ∈ gone t r) :
    r.Leaves old.name ∧ t.packages.get old.name = some old := by
  obtain ⟨name, leaves, found⟩ := (mem_gone old).mp goes
  rw [agree.names name old found]
  exact ⟨leaves, found⟩

theorem Agree.commit_packages (agree : Agree t) (p : Plan) (name : String) (pkg : InstalledPackage) :
    (commitState t r p now).packages.get name = some pkg ↔
      (∃ m ∈ r.installs, m.name = name ∧ pkg = m.installedAt now) ∨
        ¬ r.Leaves name ∧ t.packages.get name = some pkg := by
  show (r.installs.foldl (insertNew now) ((gone t r).foldl dropOld t)).packages.get name = _ ↔ _
  rw [insertNew_packages now r.installs _ r.distinct, (dropped_all t (gone t r)).packages]
  refine or_congr_right ⟨?_, ?_⟩
  · rintro ⟨notInstalled, found, others⟩
    refine ⟨?_, found⟩
    rintro (installed | removed)
    · exact notInstalled installed
    · have goes : pkg ∈ gone t r := (mem_gone pkg).mpr ⟨name, Or.inr removed, found⟩
      exact others pkg goes (agree.names name pkg found)
  · rintro ⟨stays, found⟩
    refine ⟨fun installed => stays (Or.inl installed), found, ?_⟩
    rintro old goes rfl
    exact stays (agree.mem_gone_of_leaves goes).1

theorem Agree.commit_capabilities (agree : Agree t) (p : Plan) (capability name : String) :
    (capability, name) ∈ (commitState t r p now).capabilities ↔
      ¬ r.Leaves name ∧ (capability, name) ∈ t.capabilities ∨
        ∃ m ∈ r.installs, m.name = name ∧ capability ∈ m.provides := by
  show _ ∈ (r.installs.foldl (insertNew now) ((gone t r).foldl dropOld t)).capabilities ↔ _
  rw [(insertNew_rest now r.installs _ capability name).1,
    (dropped_all t (gone t r)).capabilities]
  refine or_congr_left ⟨?_, ?_⟩
  · rintro ⟨here, others⟩
    refine ⟨?_, here⟩
    intro leaves
    obtain ⟨pkg, found, provides⟩ := (agree.provided capability name).mp here
    have goes : pkg ∈ gone t r := (mem_gone pkg).mpr ⟨name, leaves, found⟩
    exact others pkg goes ⟨(agree.names name pkg found).symm, provides⟩
  · rintro ⟨stays, here⟩
    refine ⟨here, ?_⟩
    rintro old goes ⟨rfl, -⟩
    exact stays (agree.mem_gone_of_leaves goes).1

/-- A row of a package that leaves is dropped, since that package's manifest lists it. -/
theorem Agree.commit_files (agree : Agree t) {p : Plan} (distinct : (p.tracked.map Prod.fst).Nodup)
    (path : String) (row : TrackedFile) :
    (commitState t r p now).files.get path = some row ↔
      (path, row) ∈ p.tracked ∨
        path ∉ p.tracked.map Prod.fst ∧ ¬ r.Leaves row.owner ∧ t.files.get path = some row := by
  show (p.tracked.foldl (fun files row => files.set row.1 row.2)
    (r.installs.foldl (insertNew now) ((gone t r).foldl dropOld t)).files).get path = _ ↔ _
  rw [get_tracked _ _ distinct, (insertNew_rest now r.installs _ "" "").2,
    (dropped_all t (gone t r)).files]
  refine or_congr_right (and_congr_right fun _ => ⟨?_, ?_⟩)
  · rintro ⟨here, others⟩
    refine ⟨?_, here⟩
    intro leaves
    obtain ⟨pkg, found, lists, -⟩ := agree.owned path row here
    have goes : pkg ∈ gone t r := (mem_gone pkg).mpr ⟨row.owner, leaves, found⟩
    exact others pkg goes ⟨lists, (agree.names row.owner pkg found).symm⟩
  · rintro ⟨stays, here⟩
    refine ⟨here, ?_⟩
    rintro old goes ⟨-, owns⟩
    rw [owns] at stays
    exact stays (agree.mem_gone_of_leaves goes).1

/-- The rows of a plan are those of the manifests it installs. -/
theorem Covers.installed {p : Plan}
    (covers : Covers t r.removals ((r.installs.map fun m => (m.name, m.files)).reverse) p) :
    (∀ path row, (path, row) ∈ p.tracked → Tracks path ∧ Takes t r.removals row.owner path ∧
      ∃ m ∈ r.installs, m.name = row.owner ∧ path ∈ m.files) ∧
    (∀ m ∈ r.installs, ∀ path ∈ m.files, Tracks path →
      ∃ row, (path, row) ∈ p.tracked ∧ row.owner = m.name) := by
  refine ⟨?_, ?_⟩
  · intro path row mem
    obtain ⟨isFile, takes, files, known, inFiles⟩ := covers.rows path row mem
    obtain ⟨m, mem, same⟩ := List.mem_map.mp (List.mem_reverse.mp known)
    obtain ⟨named, rfl⟩ := Prod.mk.inj same
    exact ⟨isFile, takes, m, mem, named, inFiles⟩
  · intro m mem
    exact covers.all m.name m.files
      (List.mem_reverse.mpr (List.mem_map.mpr ⟨m, mem, rfl⟩))

/-- A file that another package keeps is not taken over. -/
theorem Covers.not_tracked_of_stays {p : Plan}
    (covers : Covers t r.removals ((r.installs.map fun m => (m.name, m.files)).reverse) p)
    {path : String} {row : TrackedFile} (here : t.files.get path = some row)
    (stays : ¬ r.Leaves row.owner) : path ∉ p.tracked.map Prod.fst := by
  intro mem
  obtain ⟨⟨taken, new⟩, inTracked, rfl⟩ := List.mem_map.mp mem
  obtain ⟨-, takes, m, installs, named, -⟩ := covers.installed.1 taken new inTracked
  rcases takes row here with own | removed
  · refine stays (Or.inl ?_)
    rw [own, ← named]
    exact List.mem_map_of_mem installs
  · exact stays (Or.inr removed)

theorem commit_agree (agree : Agree t) {p : Plan} (goes : plan t d r = .ok p) :
    Agree (commitState t r p now) := by
  have covers := plan_covers goes
  obtain ⟨rows, all⟩ := covers.installed
  refine ⟨?_, ?_, ?_, ?_, ?_⟩
  · intro name pkg found
    rcases (agree.commit_packages p name pkg).mp found with ⟨m, -, rfl, rfl⟩ | ⟨-, before⟩
    · rfl
    · exact agree.names name pkg before
  · intro path row found
    rcases (agree.commit_files covers.distinct path row).mp found with new | ⟨-, stays, before⟩
    · obtain ⟨isFile, -, m, mem, named, inFiles⟩ := rows path row new
      refine ⟨m.installedAt now, ?_, inFiles, isFile⟩
      exact (agree.commit_packages p _ _).mpr (Or.inl ⟨m, mem, named, rfl⟩)
    · obtain ⟨pkg, installed, lists, isFile⟩ := agree.owned path row before
      exact ⟨pkg, (agree.commit_packages p _ _).mpr (Or.inr ⟨stays, installed⟩), lists, isFile⟩
  · intro name pkg found path inFiles isFile
    rcases (agree.commit_packages p name pkg).mp found with ⟨m, mem, rfl, rfl⟩ | ⟨stays, before⟩
    · obtain ⟨row, new, owns⟩ := all m mem path inFiles isFile
      exact ⟨row, (agree.commit_files covers.distinct path row).mpr (Or.inl new), owns⟩
    · obtain ⟨row, here, rfl⟩ := agree.tracked name pkg before path inFiles isFile
      have kept := covers.not_tracked_of_stays here stays
      exact ⟨row, (agree.commit_files covers.distinct path row).mpr (Or.inr ⟨kept, stays, here⟩),
        rfl⟩
  · refine valid_tracked p.tracked ?_
    rw [(insertNew_rest now r.installs _ "" "").2]
    exact (dropped_all t (gone t r)).once agree.once
  · intro capability name
    rw [agree.commit_capabilities p capability name]
    refine ⟨?_, ?_⟩
    · rintro (⟨stays, before⟩ | ⟨m, mem, named, provides⟩)
      · obtain ⟨pkg, installed, provides⟩ := (agree.provided capability name).mp before
        exact ⟨pkg, (agree.commit_packages p _ _).mpr (Or.inr ⟨stays, installed⟩), provides⟩
      · exact ⟨m.installedAt now,
          (agree.commit_packages p _ _).mpr (Or.inl ⟨m, mem, named, rfl⟩), provides⟩
    · rintro ⟨pkg, found, provides⟩
      rcases (agree.commit_packages p name pkg).mp found with ⟨m, mem, named, rfl⟩ | ⟨stays, before⟩
      · exact Or.inr ⟨m, mem, named, provides⟩
      · exact Or.inl ⟨stays, (agree.provided capability name).mpr ⟨pkg, before, provides⟩⟩

theorem transact_agree (agree : Agree t) {t' : Tables} (goes : transact t r d now = .ok t') :
    Agree t' := by
  unfold transact at goes
  split at goes
  · cases goes
  · split at goes
    · cases goes
    · rename_i planned
      cases goes
      exact commit_agree agree planned

end Commits

/-! ## Any sequence of transactions -/

/-- A transaction as it comes: what is asked, what the disk answers its plan, and when. -/
structure Attempt where
  request : Request
  disk : Disk
  now : Nat

/-- The tables after the attempts; one that is refused leaves them as they were. -/
def transactAll (t : Tables) : List Attempt → Tables
  | [] => t
  | a :: rest =>
      match transact t a.request a.disk a.now with
      | .error _ => transactAll t rest
      | .ok t' => transactAll t' rest

theorem transactAll_agree (attempts : List Attempt) {t : Tables} (agree : Agree t) :
    Agree (transactAll t attempts) := by
  induction attempts generalizing t with
  | nil => exact agree
  | cons a rest ih =>
      unfold transactAll
      split
      · exact ih agree
      · rename_i committed
        exact ih (transact_agree agree committed)

theorem tables_agree (attempts : List Attempt) : Agree (transactAll .empty attempts) :=
  transactAll_agree attempts agree_empty

end OmarchyPool.PkgStore
