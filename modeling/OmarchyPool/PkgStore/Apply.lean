/-
# OmarchyPool.PkgStore.Apply -- applying a plan whose operations stand apart

Where the operations of a plan stand apart, every moment of its application keeps one invariant:
outside the names of the operations and the staging area nothing but directories changed, and each
operation's cell is in one of its states.
-/
import OmarchyPool.PkgStore.Cells

namespace OmarchyPool.PkgStore

open OmarchyPool.Lib

set_option autoImplicit false

/-! ## Operations that stand apart -/

def JournalEntry.replaces : JournalEntry → Bool
  | .replaced _ => true
  | _ => false

def JournalEntry.creates : JournalEntry → Bool
  | .created _ => true
  | _ => false

/-- Where operations are. -/
def locations (fs : Files) (ops : List JournalEntry) : List Loc :=
  ops.filterMap fun op => fs.locate (components op.path)

/-- Not at or inside a name of an operation, nor in the staging area. -/
def Clear (area : Loc) (locs : List Loc) (v : Loc) : Prop := ¬ area <+: v ∧ ∀ l ∈ locs, ¬ Within l v

instance (area : Loc) (locs : List Loc) (v : Loc) : Decidable (Clear area locs v) := by
  unfold Clear
  infer_instance

/-- The operations of a plan stand apart, in the tree it was made over. -/
structure Apart (area : Loc) (fs : Files) (p : Plan) : Prop where
  /-- The way to no path, and to no directory that is made, leads through a name of an operation
  or the staging area. -/
  ways : ∀ op ∈ p.ops, ∀ v ∈ fs.route (components op.path).dropLast,
    Clear area (locations fs p.ops) v
  dirs : ∀ dir ∈ p.dirs, ∀ v ∈ fs.route (components dir.1), Clear area (locations fs p.ops) v
  parents : ∀ l ∈ locations fs p.ops, Clear area (locations fs p.ops) l.dropLast
  /-- No path is the backup or the draft of another. -/
  names : ∀ l ∈ locations fs p.ops, ∀ l' ∈ locations fs p.ops, l ≠ backup l' ∧ l ≠ draft l'
  staging : ∀ l ∈ locations fs p.ops, ¬ Within l area
  /-- No operation comes to a path that an earlier one replaced, unless a directory stood there. -/
  once : p.ops.Pairwise fun op other => op.replaces = true →
    fs.locate (components op.path) = fs.locate (components other.path) →
      ∀ l ∈ fs.locate (components op.path), fs.entry l = some .dir

/-- Nothing stands at a backup or draft name of the plan's own operations. -/
def Unblocked (fs : Files) (p : Plan) : Prop :=
  ∀ l ∈ locations fs p.ops, fs.entry (backup l) = none ∧ fs.entry (draft l) = none

/-! ## The invariant -/

/-- What is known of the tree while operations at `locs` are applied or rolled back; those in
`taken` may have had their paths taken. -/
structure Inv (area : Loc) (was : Files) (locs taken : List Loc) (fs : Files) : Prop where
  away : ∀ x, Clear area locs x → entriesOutside area fs x = entriesOutside area was x
  cells : ∀ l ∈ locs, Cell was fs l (l ∈ taken)

/-- What a plan promises over a tree where its names are free. -/
structure Setting (area : Loc) (was : Files) (p : Plan) : Prop where
  apart : Apart area was p
  clean : Unblocked was p
  creates : ∀ op ∈ p.ops, ∀ l, was.locate (components op.path) = some l →
    (op.creates = true ↔ was.entry l = none)

theorem linkAt_eq_of_entries {area : Loc} {fs fs' : Files} {v : Loc} (outside : ¬ area <+: v)
    (same : entriesOutside area fs' v = entriesOutside area fs v) : fs'.linkAt v = fs.linkAt v := by
  unfold entriesOutside at same
  rw [if_neg outside, if_neg outside] at same
  unfold FileTree.linkAt
  -- a directory reads as nothing, and neither is a link
  by_cases dir' : fs'.entry v = some .dir <;> by_cases dir : fs.entry v = some .dir
  · rw [dir', dir]
  · rw [if_pos dir', if_neg dir] at same
    rw [dir', ← same]
  · rw [if_neg dir', if_pos dir] at same
    rw [dir, same]
  · rw [if_neg dir', if_neg dir] at same
    rw [same]

theorem stages_entries {area : Loc} {fs fs' : Files} (stages : Stages area fs fs') :
    entriesOutside area fs' = entriesOutside area fs := by
  funext x
  unfold entriesOutside
  by_cases inside : area <+: x
  · rw [if_pos inside, if_pos inside]
  · rw [if_neg inside, if_neg inside]
    rcases stages x inside with same | ⟨-, none, dir⟩
    · rw [same]
    · rw [none, dir, if_pos rfl, if_neg nofun]

section Running

variable {area : Loc} {was fs fs' : Files} {p : Plan} {taken : List Loc} {op : JournalEntry} {l : Loc}

theorem mem_locations (mem : op ∈ p.ops) (found : was.locate (components op.path) = some l) :
    l ∈ locations was p.ops := List.mem_filterMap.mpr ⟨op, mem, found⟩

theorem proper_of_mem (mem : l ∈ locations was p.ops) : l ≠ [] := by
  obtain ⟨op, -, found⟩ := List.mem_filterMap.mp mem
  exact FileTree.locate_ne_nil found

/-- The names of two operations meet only if they are one's. -/
theorem Apart.unique (apart : Apart area was p) {l' x : Loc} (mem : l ∈ locations was p.ops)
    (mem' : l' ∈ locations was p.ops) (here : Within l x) (there : Within l' x) : l = l' :=
  within_unique (proper_of_mem mem) (proper_of_mem mem') ((apart.parents l' mem').2 l mem)
    ((apart.parents l mem).2 l' mem') (apart.names l mem l' mem') (apart.names l' mem' l mem)
    here there

theorem Inv.start (setting : Setting area was p) :
    Inv area was (locations was p.ops) [] was where
  away := fun _ _ => rfl
  cells := by
    intro l mem
    obtain ⟨old, new⟩ := setting.clean l mem
    exact ⟨by rw [new]; exact nofun, Or.inl ⟨old, fun _ => rfl⟩⟩

theorem Inv.weaken {locs more : List Loc} (inv : Inv area was locs taken fs)
    (wider : ∀ l ∈ locs, l ∈ taken → l ∈ more) : Inv area was locs more fs :=
  ⟨inv.away, fun l mem => (inv.cells l mem).mono (wider l mem)⟩

/-- A step on the names of one operation. -/
theorem Inv.step (apart : Apart area was p) {more : List Loc}
    (inv : Inv area was (locations was p.ops) taken fs) (mem : l ∈ locations was p.ops)
    (only : Only l fs fs') (cell : Cell was fs' l (l ∈ more)) (wider : ∀ l' ∈ taken, l' ∈ more) :
    Inv area was (locations was p.ops) more fs' where
  away := by
    intro x clear
    rw [← inv.away x clear]
    unfold entriesOutside
    rw [only x (clear.2 l mem)]
  cells := by
    intro l' mem'
    by_cases same : l = l'
    · exact same ▸ cell
    · refine ((inv.cells l' mem').congr ?_).mono (wider l')
      intro x inside
      exact only x (fun here => same (apart.unique mem mem' here inside))

/-- The way to a planned path leads where it led. -/
theorem Inv.locates (apart : Apart area was p) (inv : Inv area was (locations was p.ops) taken fs)
    (mem : op ∈ p.ops) : fs.locate (components op.path) = was.locate (components op.path) := by
  refine FileTree.locate_congr ?_
  intro v way
  have clear := apart.ways op mem v way
  exact linkAt_eq_of_entries clear.1 (inv.away v clear)

/-- A call on a planned path is one on its location. -/
theorem Inv.onPath (apart : Apart area was p) (inv : Inv area was (locations was p.ops) taken fs)
    (mem : op ∈ p.ops) {call : Loc → Step Files} (goes : onPath op.path call fs = some fs') :
    ∃ l ∈ locations was p.ops, was.locate (components op.path) = some l ∧ call l fs = some fs' := by
  obtain ⟨l, found, called⟩ := Option.bind_eq_some_iff.mp goes
  rw [inv.locates apart mem] at found
  exact ⟨l, mem_locations mem found, found, called⟩

/-- A directory made on the way to a planned one. -/
theorem Inv.createDir (inv : Inv area was (locations was p.ops) taken fs) {front dir : List String}
    (below : front <+: dir)
    (clear : ∀ v ∈ was.route dir, Clear area (locations was p.ops) v)
    (goes : createDir front fs = some fs') : Inv area was (locations was p.ops) taken fs' := by
  unfold PkgStore.createDir at goes
  split at goes
  · cases goes
    exact inv
  · obtain ⟨loc, found, made⟩ := Option.bind_eq_some_iff.mp goes
    obtain ⟨free, entries⟩ : fs.entry loc = none ∧
        ∀ other, fs'.entry other = if other = loc then some .dir else fs.entry other := by
      cases created : fs.create loc .dir with
      | error why => rw [created] at made; cases made
      | ok made' =>
          rw [created] at made
          cases made
          exact FileTree.create_ok created
    have sameRoute : fs.route dir = was.route dir := FileTree.route_congr fun v way =>
      linkAt_eq_of_entries (clear v way).1 (inv.away v (clear v way))
    obtain ⟨back, rfl⟩ := below
    have locClear : Clear area (locations was p.ops) loc :=
      clear loc (sameRoute ▸ (FileTree.locate_mem_route back found).1)
    refine ⟨?_, ?_⟩
    · intro x clearX
      rw [← inv.away x clearX]
      unfold entriesOutside
      rw [entries x]
      by_cases same : x = loc
      · rw [if_pos same, same, free, if_neg locClear.1, if_neg locClear.1, if_pos rfl, if_neg nofun]
      · rw [if_neg same]
    · intro l mem
      refine (inv.cells l mem).congr ?_
      intro x inside
      rw [entries x, if_neg]
      rintro rfl
      exact locClear.2 l mem inside

/-- The names of an operation are neither in the staging area nor above it. -/
theorem Apart.outside (apart : Apart area was p) (mem : l ∈ locations was p.ops) {x : Loc}
    (inside : Within l x) : ¬ area <+: x ∧ ¬ x <+: area := by
  obtain ⟨dir, name, rfl⟩ : ∃ dir name, l = dir ++ [name] :=
    ⟨_, _, (List.dropLast_append_getLast (proper_of_mem mem)).symm⟩
  have parent := (apart.parents _ mem).1
  have above := apart.staging _ mem
  unfold Within backup draft at inside above
  simp only [sibling_concat, List.dropLast_concat, not_or] at inside parent above
  have away : ∀ {n : String}, dir ++ [n] <+: x → ¬ dir ++ [n] <+: area →
      ¬ area <+: x ∧ ¬ x <+: area := by
    intro n here notAbove
    refine ⟨?_, fun below => notAbove (here.trans below)⟩
    intro below
    rcases List.prefix_or_prefix_of_prefix here below with shorter | longer
    · exact notAbove shorter
    · rcases List.prefix_concat_iff.mp longer with same | inDir
      · exact notAbove (same ▸ List.prefix_refl _)
      · exact parent inDir
  rcases inside with path | aside | new
  · exact away path above.1
  · exact away aside above.2.1
  · exact away new above.2.2

theorem Apart.staged (apart : Apart area was p) (mem : l ∈ locations was p.ops)
    (stages : Stages area fs fs') {x : Loc} (inside : Within l x) : fs'.entry x = fs.entry x := by
  obtain ⟨outside, notAbove⟩ := apart.outside mem inside
  rcases stages x outside with same | ⟨above, -⟩
  · exact same
  · exact absurd above notAbove

/-- Staging, and removing what was staged, touches no cell. -/
theorem Inv.stages (apart : Apart area was p) (inv : Inv area was (locations was p.ops) taken fs)
    (stages : Stages area fs fs') : Inv area was (locations was p.ops) taken fs' where
  away := by
    rw [stages_entries stages]
    exact inv.away
  cells := fun l mem => (inv.cells l mem).congr fun _ inside => apart.staged mem stages inside

/-! ## Applying a plan -/

/-- What holds wherever the application or a rollback stops. -/
def Between (area : Loc) (was : Files) (p : Plan) (fs : Files) : Prop :=
  Inv area was (locations was p.ops) (locations was p.ops) fs

theorem Inv.between (inv : Inv area was (locations was p.ops) taken fs) : Between area was p fs :=
  inv.weaken fun _ mem _ => mem

/-- What holds while an operation's new entry is made. -/
def Placing (area : Loc) (was : Files) (p : Plan) (taken : List Loc) (op : JournalEntry)
    (fs : Files) : Prop :=
  Inv area was (locations was p.ops) taken fs ∧
    ∀ l, was.locate (components op.path) = some l → Ready was fs l

theorem Placing.sets_draft (apart : Apart area was p) (placing : Placing area was p taken op fs)
    (mem : op ∈ p.ops) (found : was.locate (components op.path) = some l)
    {value : Option (Entry String)} (leaf : value ≠ some .dir) (sets : Sets (draft l) value fs fs') :
    Placing area was p taken op fs' := by
  obtain ⟨inv, ready⟩ := placing
  have inLocs := mem_locations mem found
  obtain ⟨cell, kept⟩ := (inv.cells l inLocs).sets_draft (proper_of_mem inLocs) leaf sets
  refine ⟨inv.step apart inLocs sets.only_draft cell fun _ mem => mem, ?_⟩
  intro l' found'
  rw [found] at found'
  cases found'
  exact kept (ready l found)

theorem placeFrom_safe (apart : Apart area was p) (staging : List String) (mem : op ∈ p.ops)
    {more : List Loc} (wider : ∀ l ∈ taken, l ∈ more)
    (takes : ∀ l, was.locate (components op.path) = some l → was.entry l ≠ none → l ∈ more) :
    CrashSafe (Placing area was p taken op) (placeFrom staging p op.path) (Between area was p)
      (Inv area was (locations was p.ops) more) := by
  have stops : ∀ fs, Placing area was p taken op fs → Between area was p fs :=
    fun _ placing => placing.1.between
  unfold placeFrom
  split
  · rename_i source _
    refine .cons stops ?_ (.cons stops ?_ (.cons stops ?_ (.nil ?_ fun _ done => done)))
    · intro fs fs' placing goes
      split at goes
      · cases goes
      · obtain ⟨l, -, found, removed⟩ := placing.1.onPath apart mem goes
        have sets : Sets (draft l) none fs fs' := (removeFileIfExists_spec removed).2
        exact placing.sets_draft apart mem found (by exact nofun) sets
    · intro fs fs' placing goes
      obtain ⟨l, -, found, made⟩ := placing.1.onPath apart mem goes
      split at made
      · cases made
      · cases made
      · rename_i e notDir _
        cases created : fs.create (sibling l newSuffix) e with
        | error why => rw [created] at made; cases made
        | ok next =>
            rw [created] at made
            cases made
            refine placing.sets_draft apart mem found ?_ (FileTree.create_ok created).2
            exact fun same => notDir (Option.some.inj same)
    · intro fs fs' placing goes
      obtain ⟨l, inLocs, found, moved⟩ := placing.1.onPath apart mem goes
      have proper := proper_of_mem inLocs
      cases renamed : fs.rename (sibling l newSuffix) l with
      | error why => rw [renamed] at moved; cases moved
      | ok next =>
          rw [renamed] at moved
          cases moved
          have moves : Moves (draft l) l fs fs' := (FileTree.rename_ok renamed (draft_ne proper)).2.2
          have cell := (placing.1.cells l inLocs).place proper (placing.2 l found) moves
          exact placing.1.step apart inLocs (moves.only (within_draft l) (within_path l))
            (cell.mono (takes l found)) wider
    · exact fun _ inv => inv.between
  · exact .cons stops (fun _ _ _ goes => by cases goes) (.nil (fun _ inv => inv.between) fun _ inv => inv)

/-- The paths that operations have replaced. -/
def replacedBy (was : Files) (ops : List JournalEntry) : List Loc :=
  locations was (ops.filter JournalEntry.replaces)

theorem replacedBy_append (done more : List JournalEntry) :
    replacedBy was (done ++ more) = replacedBy was done ++ replacedBy was more := by
  unfold replacedBy locations
  rw [List.filter_append, List.filterMap_append]

/-- What stood at a path that an earlier operation replaced is a directory. -/
theorem Apart.replaced_dir (apart : Apart area was p) {done rest : List JournalEntry}
    (all : p.ops = done ++ op :: rest) (found : was.locate (components op.path) = some l)
    (earlier : l ∈ replacedBy was done) : was.entry l = some .dir := by
  obtain ⟨other, mem, foundOther⟩ := List.mem_filterMap.mp earlier
  obtain ⟨inDone, replaces⟩ := List.mem_filter.mp mem
  have once := apart.once
  rw [all, List.pairwise_append] at once
  refine once.2.2 other inDone op List.mem_cons_self replaces ?_ l foundOther
  rw [foundOther, found]

theorem moveAside_safe (setting : Setting area was p) {done rest : List JournalEntry}
    (all : p.ops = done ++ op :: rest) (present : op.creates = false)
    (inv : Inv area was (locations was p.ops) (replacedBy was done) fs)
    (goes : moveAside op.path fs = some fs') :
    Placing area was p (replacedBy was done) op fs' := by
  have apart := setting.apart
  have mem : op ∈ p.ops := all ▸ List.mem_append_right _ List.mem_cons_self
  obtain ⟨l, inLocs, found, renamed⟩ := inv.onPath apart mem goes
  have stood : was.entry l ≠ none := by
    intro none
    rw [(setting.creates op mem l found).mpr none] at present
    cases present
  obtain ⟨cell, aside, only⟩ := (inv.cells l inLocs).moves_aside (proper_of_mem inLocs) stood
    (apart.replaced_dir all found) renamed
  refine ⟨inv.step apart inLocs only cell fun _ mem => mem, ?_⟩
  intro l' found'
  rw [found] at found'
  cases found'
  exact Or.inr aside

theorem createDirAll_safe {dir : List String}
    (clear : ∀ v ∈ was.route dir, Clear area (locations was p.ops) v) :
    CrashSafe (Inv area was (locations was p.ops) taken) (createDirAll dir) (Between area was p)
      (Inv area was (locations was p.ops) taken) := by
  refine .keeps (fun _ inv => inv.between) ?_
  intro step mem fs fs' inv goes
  obtain ⟨front, inTail, rfl⟩ := List.mem_map.mp mem
  have below : front <+: dir := (List.mem_inits front dir).mp (List.mem_of_mem_tail inTail)
  exact inv.createDir below clear goes

theorem applyOp_safe (setting : Setting area was p) (staging : List String)
    {done rest : List JournalEntry} (all : p.ops = done ++ op :: rest) :
    CrashSafe (Inv area was (locations was p.ops) (replacedBy was done)) (applyOp staging p op)
      (Between area was p) (Inv area was (locations was p.ops) (replacedBy was (done ++ [op]))) := by
  have mem : op ∈ p.ops := all ▸ List.mem_append_right _ List.mem_cons_self
  have wider : ∀ l ∈ replacedBy was done, l ∈ replacedBy was (done ++ [op]) := by
    intro l earlier
    rw [replacedBy_append]
    exact List.mem_append_left _ earlier
  cases op with
  | created path =>
      refine (createDirAll_safe (setting.apart.ways _ mem)).append ?_
      have nothing : ∀ l, was.locate (components path) = some l → was.entry l = none :=
        fun l found => (setting.creates _ mem l found).mp rfl
      refine (placeFrom_safe setting.apart staging mem wider ?_).mono ?_ fun _ inv => inv
      · exact fun l found stood => absurd (nothing l found) stood
      · exact fun fs inv => ⟨inv, fun l found => Or.inl (nothing l found)⟩
  | replaced path =>
      refine .cons (fun _ inv => inv.between)
        (fun fs fs' inv goes => moveAside_safe setting all rfl inv goes)
        (placeFrom_safe setting.apart staging mem wider ?_)
      intro l found _
      rw [replacedBy_append]
      refine List.mem_append_right _ (List.mem_filterMap.mpr ⟨.replaced path, ?_, found⟩)
      exact List.mem_filter.mpr ⟨List.mem_singleton_self _, rfl⟩
  | removed path =>
      refine .cons (fun _ inv => inv.between)
        (fun fs fs' inv goes => (moveAside_safe setting all rfl inv goes).1.weaken ?_)
        (.nil (fun _ inv => inv.between) fun _ inv => inv)
      exact fun l _ earlier => wider l earlier

theorem applySteps_safe (setting : Setting area was p) (staging : List String) :
    CrashSafe (Inv area was (locations was p.ops) []) (applySteps staging p) (Between area was p)
      (Between area was p) := by
  refine CrashSafe.append (R := Inv area was (locations was p.ops) []) ?_ ?_
  · refine @CrashSafe.flatMap _ _ _ _ (fun _ => Inv area was (locations was p.ops) []) p.dirs
      (fun _ inv => inv.between) ?_
    intro done dir rest all
    have mem : dir ∈ p.dirs := all ▸ List.mem_append_right _ List.mem_cons_self
    exact createDirAll_safe (setting.apart.dirs dir mem)
  · refine (@CrashSafe.flatMap _ _ _ _
      (fun done => Inv area was (locations was p.ops) (replacedBy was done)) p.ops
      (fun _ inv => inv.between) ?_).mono (fun _ inv => inv) fun _ inv => inv.between
    exact fun done op rest all => applyOp_safe setting staging all

end Running

end OmarchyPool.PkgStore
