/-
# OmarchyPool.PkgStore.Cells -- what a transaction may leave at the names of one operation

An operation works on three names of one directory: its path, the backup and the draft beside it.
At every moment of a transaction and of its recovery the three are in one of three states
(`Cell`): what stood there is untouched; nothing stood there and something new may; or what stood
there is aside, whole, and the path holds at most something new.  Each call of the transaction and
of the rollback keeps the cell of its operation, and touches no other name.
-/
import OmarchyPool.PkgStore.Journal

namespace OmarchyPool.PkgStore

open OmarchyPool.Lib

set_option autoImplicit false

/-! ## The names of an operation -/

def backup (l : Loc) : Loc := sibling l oldSuffix
def draft (l : Loc) : Loc := sibling l newSuffix

/-- At or inside one of the names of an operation. -/
def Within (l x : Loc) : Prop := l <+: x ∨ backup l <+: x ∨ draft l <+: x

instance (l x : Loc) : Decidable (Within l x) := by
  unfold Within
  infer_instance

theorem sibling_concat (dir : Loc) (name suffix : String) :
    sibling (dir ++ [name]) suffix = dir ++ [name ++ suffix] := by
  unfold sibling
  rw [List.dropLast_concat, List.getLastD_concat]

theorem suffixed_ne (name : String) {suffix : String} (proper : suffix ≠ "") : name ≠ name ++ suffix := by
  intro same
  have lengths := congrArg String.length same
  rw [String.length_append] at lengths
  have empty : suffix.length = 0 := by omega
  exact proper (String.length_eq_zero_iff.mp empty)

theorem old_ne_new (name other : String) : name ++ oldSuffix ≠ other ++ newSuffix := by
  intro same
  have lasts := congrArg (fun text => text.toList.getLast?) same
  simp only [String.toList_append, oldSuffix, newSuffix] at lasts
  rw [List.getLast?_append_of_ne_nil _ (by decide), List.getLast?_append_of_ne_nil _ (by decide)] at lasts
  exact absurd lasts (by decide)

/-- Two names of one directory, or of two of which neither is inside the other's. -/
theorem eq_of_prefixes {dir dir' x : Loc} {name name' : String} (here : dir ++ [name] <+: x)
    (there : dir' ++ [name'] <+: x) (apart : ¬ dir ++ [name] <+: dir')
    (apart' : ¬ dir' ++ [name'] <+: dir) : dir = dir' ∧ name = name' := by
  rcases List.prefix_or_prefix_of_prefix here there with shorter | longer
  · have same := (List.prefix_concat_iff.mp shorter).resolve_right apart
    exact ⟨(List.append_inj' same rfl).1, List.singleton_inj.mp (List.append_inj' same rfl).2⟩
  · have same := (List.prefix_concat_iff.mp longer).resolve_right apart'
    exact ⟨(List.append_inj' same rfl).1.symm, (List.singleton_inj.mp (List.append_inj' same rfl).2).symm⟩

/-- The names of two operations do not meet. -/
theorem within_unique {l l' x : Loc} (proper : l ≠ []) (proper' : l' ≠ [])
    (outside : ¬ Within l l'.dropLast) (outside' : ¬ Within l' l.dropLast)
    (unlike : l ≠ backup l' ∧ l ≠ draft l') (unlike' : l' ≠ backup l ∧ l' ≠ draft l)
    (here : Within l x) (there : Within l' x) : l = l' := by
  obtain ⟨dir, name, rfl⟩ : ∃ dir name, l = dir ++ [name] :=
    ⟨_, _, (List.dropLast_append_getLast proper).symm⟩
  obtain ⟨dir', name', rfl⟩ : ∃ dir name, l' = dir ++ [name] :=
    ⟨_, _, (List.dropLast_append_getLast proper').symm⟩
  unfold Within backup draft at here there outside outside'
  unfold backup draft at unlike unlike'
  simp only [sibling_concat, List.dropLast_concat, not_or] at here there outside outside' unlike unlike'
  have meets : ∀ n n', dir ++ [n] <+: x → dir' ++ [n'] <+: x → ¬ dir ++ [n] <+: dir' →
      ¬ dir' ++ [n'] <+: dir → dir = dir' ∧ n = n' := fun n n' => eq_of_prefixes
  rcases here with own | own | own
  · rcases there with other | other | other
    · obtain ⟨rfl, rfl⟩ := meets _ _ own other outside.1 outside'.1
      rfl
    · obtain ⟨rfl, rfl⟩ := meets _ _ own other outside.1 outside'.2.1
      exact absurd rfl unlike.1
    · obtain ⟨rfl, rfl⟩ := meets _ _ own other outside.1 outside'.2.2
      exact absurd rfl unlike.2
  · rcases there with other | other | other
    · obtain ⟨rfl, rfl⟩ := meets _ _ own other outside.2.1 outside'.1
      exact absurd rfl unlike'.1
    · obtain ⟨rfl, names⟩ := meets _ _ own other outside.2.1 outside'.2.1
      rw [(String.append_left_inj _).mp names]
    · obtain ⟨rfl, names⟩ := meets _ _ own other outside.2.1 outside'.2.2
      exact absurd names (old_ne_new _ _)
  · rcases there with other | other | other
    · obtain ⟨rfl, rfl⟩ := meets _ _ own other outside.2.2 outside'.1
      exact absurd rfl unlike'.2
    · obtain ⟨rfl, names⟩ := meets _ _ own other outside.2.2 outside'.2.1
      exact absurd names.symm (old_ne_new _ _)
    · obtain ⟨rfl, names⟩ := meets _ _ own other outside.2.2 outside'.2.2
      rw [(String.append_left_inj _).mp names]

/-- The three names of an operation are three, and none is inside another. -/
structure Three (l : Loc) : Prop where
  path_backup : ∀ s, ¬ l <+: backup l ++ s
  path_draft : ∀ s, ¬ l <+: draft l ++ s
  backup_path : ∀ s, ¬ backup l <+: l ++ s
  backup_draft : ∀ s, ¬ backup l <+: draft l ++ s
  draft_path : ∀ s, ¬ draft l <+: l ++ s
  draft_backup : ∀ s, ¬ draft l <+: backup l ++ s

theorem three {l : Loc} (proper : l ≠ []) : Three l := by
  obtain ⟨dir, name, rfl⟩ : ∃ dir name, l = dir ++ [name] :=
    ⟨_, _, (List.dropLast_append_getLast proper).symm⟩
  have names : ∀ {n n' : String} (s : List String), n ≠ n' → ¬ dir ++ [n] <+: dir ++ [n'] ++ s := by
    intro n n' s differ below
    rw [List.append_assoc, List.prefix_append_right_inj, List.singleton_append,
      List.cons_prefix_cons] at below
    exact differ below.1
  have old : name ≠ name ++ oldSuffix := suffixed_ne name (by decide)
  have new : name ≠ name ++ newSuffix := suffixed_ne name (by decide)
  constructor
  all_goals simp only [backup, draft, sibling_concat]
  · exact fun s => names s old
  · exact fun s => names s new
  · exact fun s => names s old.symm
  · exact fun s => names s (old_ne_new _ _)
  · exact fun s => names s new.symm
  · exact fun s => names s (old_ne_new _ _).symm

theorem backup_ne {l : Loc} (proper : l ≠ []) : backup l ≠ l := by
  intro same
  have apart := (three proper).path_backup []
  rw [List.append_nil, same] at apart
  exact apart (List.prefix_refl l)

theorem draft_ne {l : Loc} (proper : l ≠ []) : draft l ≠ l := by
  intro same
  have apart := (three proper).path_draft []
  rw [List.append_nil, same] at apart
  exact apart (List.prefix_refl l)

theorem backup_ne_draft {l : Loc} (proper : l ≠ []) : backup l ≠ draft l := by
  intro same
  have apart := (three proper).backup_draft []
  rw [List.append_nil, same] at apart
  exact apart (List.prefix_refl _)

/-! ## The states of a cell -/

section Cells

variable {was fs fs' : Files} {l : Loc} {taken : Prop}

/-- What stood at the path stands there. -/
def Untouched (was fs : Files) (l : Loc) : Prop :=
  fs.entry (backup l) = none ∧ ∀ s, fs.entry (l ++ s) = was.entry (l ++ s)

/-- Nothing stood at the path. -/
def Fresh (was fs : Files) (l : Loc) : Prop :=
  was.entry l = none ∧ fs.entry (backup l) = none ∧ fs.entry l ≠ some .dir

/-- What stood at the path is aside, whole. -/
def Aside (was fs : Files) (l : Loc) : Prop :=
  was.entry l ≠ none ∧ (∀ s, fs.entry (backup l ++ s) = was.entry (l ++ s)) ∧ fs.entry l ≠ some .dir

/-- Until an operation has taken the path, only a directory's is held while its backup is there. -/
def Vacant (was fs : Files) (l : Loc) (taken : Prop) : Prop :=
  taken ∨ fs.entry l = none ∨ was.entry l = some .dir

structure Cell (was fs : Files) (l : Loc) (taken : Prop) : Prop where
  leaf : fs.entry (draft l) ≠ some .dir
  state : Untouched was fs l ∨ Fresh was fs l ∨ Aside was fs l ∧ Vacant was fs l taken

theorem Cell.mono {taken' : Prop} (cell : Cell was fs l taken) (more : taken → taken') :
    Cell was fs l taken' := by
  refine ⟨cell.leaf, cell.state.imp_right (Or.imp_right ?_)⟩
  exact fun ⟨aside, vacant⟩ => ⟨aside, vacant.imp_left more⟩

/-- A cell is what is at its names. -/
theorem Cell.congr (cell : Cell was fs l taken)
    (same : ∀ x, Within l x → fs'.entry x = fs.entry x) : Cell was fs' l taken := by
  have path : ∀ s, fs'.entry (l ++ s) = fs.entry (l ++ s) :=
    fun s => same _ (Or.inl (List.prefix_append l s))
  have aside : ∀ s, fs'.entry (backup l ++ s) = fs.entry (backup l ++ s) :=
    fun s => same _ (Or.inr (Or.inl (List.prefix_append _ s)))
  have here : fs'.entry l = fs.entry l := same l (Or.inl (List.prefix_refl l))
  have old : fs'.entry (backup l) = fs.entry (backup l) :=
    same _ (Or.inr (Or.inl (List.prefix_refl _)))
  have new : fs'.entry (draft l) = fs.entry (draft l) :=
    same _ (Or.inr (Or.inr (List.prefix_refl _)))
  refine ⟨by rw [new]; exact cell.leaf, ?_⟩
  unfold Untouched Fresh Aside Vacant
  simp only [path, aside, here, old]
  exact cell.state

/-- Only the names of one operation change. -/
def Only (l : Loc) (fs fs' : Files) : Prop := ∀ x, ¬ Within l x → fs'.entry x = fs.entry x

theorem only_refl (l : Loc) (fs : Files) : Only l fs fs := fun _ _ => rfl

/-- The path may be taken: nothing stood there, or what stood there is aside. -/
def Ready (was fs : Files) (l : Loc) : Prop := was.entry l = none ∨ Aside was fs l

/-- One of the names gets another entry. -/
def Sets (y : Loc) (value : Option (Entry String)) (fs fs' : Files) : Prop :=
  ∀ x, fs'.entry x = if x = y then value else fs.entry x

theorem Sets.only_draft {value : Option (Entry String)} (sets : Sets (draft l) value fs fs') :
    Only l fs fs' := by
  intro x outside
  rw [sets x, if_neg]
  rintro rfl
  exact outside (Or.inr (Or.inr (List.prefix_refl _)))

theorem Sets.only_path {value : Option (Entry String)} (sets : Sets l value fs fs') : Only l fs fs' := by
  intro x outside
  rw [sets x, if_neg]
  rintro rfl
  exact outside (Or.inl (List.prefix_refl _))

/-- A draft comes or goes. -/
theorem Cell.sets_draft (cell : Cell was fs l taken) (proper : l ≠ [])
    {value : Option (Entry String)} (leaf : value ≠ some .dir) (sets : Sets (draft l) value fs fs') :
    Cell was fs' l taken ∧ (Ready was fs l → Ready was fs' l) := by
  have names := three proper
  have path : ∀ s, fs'.entry (l ++ s) = fs.entry (l ++ s) := by
    intro s
    rw [sets, if_neg]
    intro same
    exact names.draft_path s (same ▸ List.prefix_refl _)
  have aside : ∀ s, fs'.entry (backup l ++ s) = fs.entry (backup l ++ s) := by
    intro s
    rw [sets, if_neg]
    intro same
    exact names.draft_backup s (same ▸ List.prefix_refl _)
  have here : fs'.entry l = fs.entry l := by simpa using path []
  have old : fs'.entry (backup l) = fs.entry (backup l) := by simpa using aside []
  refine ⟨⟨?_, ?_⟩, ?_⟩
  · rw [sets, if_pos rfl]
    exact leaf
  · unfold Untouched Fresh Aside Vacant
    simp only [path, aside, here, old]
    exact cell.state
  · unfold Ready Aside
    simp only [aside, here]
    exact id

/-- The path is emptied, where what stood there is aside or nothing stood there. -/
theorem Cell.sets_path (cell : Cell was fs l taken) (proper : l ≠ []) (ready : Ready was fs l)
    (sets : Sets l none fs fs') : Cell was fs' l taken ∧ fs'.entry l = none := by
  have names := three proper
  have here : fs'.entry l = none := by rw [sets, if_pos rfl]
  have aside : ∀ s, fs'.entry (backup l ++ s) = fs.entry (backup l ++ s) := by
    intro s
    rw [sets, if_neg]
    intro same
    exact names.path_backup s ⟨[], by rw [same, List.append_nil]⟩
  have new : fs'.entry (draft l) = fs.entry (draft l) := by
    rw [sets, if_neg (draft_ne proper)]
  refine ⟨⟨by rw [new]; exact cell.leaf, ?_⟩, here⟩
  rcases ready with nothing | stood
  · have old : fs.entry (backup l) = none := by
      rcases cell.state with untouched | fresh | ⟨aside, -⟩
      · exact untouched.1
      · exact fresh.2.1
      · exact absurd nothing aside.1
    refine Or.inr (Or.inl ⟨nothing, ?_, ?_⟩)
    · have kept := aside []
      rw [List.append_nil] at kept
      rw [kept, old]
    · rw [here]
      exact nofun
  · refine Or.inr (Or.inr ⟨⟨stood.1, ?_, ?_⟩, Or.inr (Or.inl here)⟩)
    · intro s
      rw [aside, stood.2.1]
    · rw [here]
      exact nofun

/-! ## Renaming among the names of a cell -/

/-- What is at and inside `src` goes to `dst`. -/
def Moves (src dst : Loc) (fs fs' : Files) : Prop :=
  ∀ x, fs'.entry x =
    if dst <+: x then fs.entry (src ++ x.drop dst.length)
    else if src <+: x then none
    else fs.entry x

theorem Moves.target {src dst : Loc} (moves : Moves src dst fs fs') (s : List String) :
    fs'.entry (dst ++ s) = fs.entry (src ++ s) := by
  rw [moves, if_pos (List.prefix_append dst s), List.drop_left]

theorem Moves.source {src dst : Loc} (moves : Moves src dst fs fs') (apart : ∀ s, ¬ dst <+: src ++ s) :
    fs'.entry src = none := by
  have outside := apart []
  rw [List.append_nil] at outside
  rw [moves, if_neg outside, if_pos (List.prefix_refl src)]

theorem Moves.third {src dst other : Loc} (moves : Moves src dst fs fs')
    (apart : ∀ s, ¬ dst <+: other ++ s) (apart' : ∀ s, ¬ src <+: other ++ s) (s : List String) :
    fs'.entry (other ++ s) = fs.entry (other ++ s) := by
  rw [moves, if_neg (apart s), if_neg (apart' s)]

theorem Moves.only {src dst : Loc} (moves : Moves src dst fs fs') (inside : Within l src)
    (inside' : Within l dst) : Only l fs fs' := by
  have carries : ∀ {y x : Loc}, Within l y → y <+: x → Within l x := by
    rintro y x (path | aside | new) below
    · exact Or.inl (path.trans below)
    · exact Or.inr (Or.inl (aside.trans below))
    · exact Or.inr (Or.inr (new.trans below))
  intro x outside
  rw [moves, if_neg (fun below => outside (carries inside' below)),
    if_neg (fun below => outside (carries inside below))]

theorem within_path (l : Loc) : Within l l := Or.inl (List.prefix_refl l)
theorem within_backup (l : Loc) : Within l (backup l) := Or.inr (Or.inl (List.prefix_refl _))
theorem within_draft (l : Loc) : Within l (draft l) := Or.inr (Or.inr (List.prefix_refl _))

/-- The draft takes the path. -/
theorem Cell.place (cell : Cell was fs l taken) (proper : l ≠ []) (ready : Ready was fs l)
    (moves : Moves (draft l) l fs fs') : Cell was fs' l (was.entry l ≠ none) := by
  have names := three proper
  have here : fs'.entry l ≠ some .dir := by
    have target := moves.target []
    rw [List.append_nil, List.append_nil] at target
    rw [target]
    exact cell.leaf
  have aside := moves.third names.path_backup names.draft_backup
  refine ⟨?_, ?_⟩
  · rw [moves.source names.path_draft]
    exact nofun
  · rcases ready with nothing | stood
    · refine Or.inr (Or.inl ⟨nothing, ?_, here⟩)
      have kept := aside []
      rw [List.append_nil] at kept
      rw [kept]
      rcases cell.state with untouched | fresh | ⟨moved, -⟩
      · exact untouched.1
      · exact fresh.2.1
      · exact absurd nothing moved.1
    · refine Or.inr (Or.inr ⟨⟨stood.1, ?_, here⟩, Or.inl stood.1⟩)
      intro s
      rw [aside, stood.2.1]

/-- What stands at the path goes aside, unless it is what an operation put there. -/
theorem Cell.moves_aside (cell : Cell was fs l taken) (proper : l ≠ []) (stood : was.entry l ≠ none)
    (may : taken → was.entry l = some .dir)
    (goes : renameIfExists l (backup l) fs = some fs') :
    Cell was fs' l taken ∧ Aside was fs' l ∧ Only l fs fs' := by
  have names := three proper
  have beside : l.dropLast = (backup l).dropLast := by
    unfold backup sibling
    rw [List.dropLast_concat]
  have differ : l ≠ backup l := (backup_ne proper).symm
  unfold renameIfExists ifFound at goes
  split at goes
  · rename_i renamed
    cases goes
    obtain ⟨there, gives, moves⟩ := FileTree.rename_ok renamed differ
    have vacated : fs'.entry l = none := Moves.source moves names.backup_path
    have new : fs'.entry (draft l) = fs.entry (draft l) := by
      have third := Moves.third moves names.backup_draft names.path_draft []
      rw [List.append_nil] at third
      exact third
    have aside : Aside was fs' l := by
      refine ⟨stood, ?_, by rw [vacated]; exact nofun⟩
      intro s
      rw [Moves.target moves]
      rcases cell.state with untouched | fresh | ⟨moved, vacant⟩
      · exact untouched.2 s
      · exact absurd fresh.1 stood
      · -- A second time: only over a directory's backup, which the call refuses.
        have dir : was.entry l = some .dir := by
          rcases vacant with again | empty | dir
          · exact may again
          · exact absurd empty there
          · exact dir
        have old := moved.2.1 []
        rw [List.append_nil, List.append_nil, dir] at old
        unfold FileTree.Gives at gives
        rw [old, decide_eq_false moved.2.2] at gives
        rcases gives with none | notDir
        · cases none
        · exact absurd rfl notDir
    refine ⟨⟨by rw [new]; exact cell.leaf, Or.inr (Or.inr ⟨aside, Or.inr (Or.inl vacated)⟩)⟩, aside, ?_⟩
    exact Moves.only moves (within_path l) (within_backup l)
  · rename_i missing
    cases goes
    have empty := FileTree.rename_notFound missing beside proper
    refine ⟨cell, ?_, only_refl l _⟩
    rcases cell.state with untouched | fresh | ⟨moved, -⟩
    · have same := untouched.2 []
      rw [List.append_nil, empty] at same
      exact absurd same.symm stood
    · exact absurd fresh.1 stood
    · exact moved
  · cases goes

/-- What is aside goes back. -/
theorem Cell.restores (cell : Cell was fs l taken) (proper : l ≠ [])
    (there : fs.entry (backup l) ≠ none) (goes : renameIfExists (backup l) l fs = some fs') :
    Cell was fs' l taken ∧ Untouched was fs' l ∧ fs'.entry (draft l) = fs.entry (draft l) ∧
      Only l fs fs' := by
  have names := three proper
  have aside : Aside was fs l := by
    rcases cell.state with untouched | fresh | ⟨moved, -⟩
    · exact absurd untouched.1 there
    · exact absurd fresh.2.1 there
    · exact moved
  have proper' : backup l ≠ [] := by
    unfold backup sibling
    exact List.append_ne_nil_of_right_ne_nil _ (List.cons_ne_nil _ _)
  have beside : (backup l).dropLast = l.dropLast := by
    unfold backup sibling
    rw [List.dropLast_concat]
  have differ : backup l ≠ l := backup_ne proper
  unfold renameIfExists ifFound at goes
  split at goes
  · rename_i renamed
    cases goes
    obtain ⟨-, -, moves⟩ := FileTree.rename_ok renamed differ
    have untouched : Untouched was fs' l := by
      refine ⟨Moves.source moves names.path_backup, ?_⟩
      intro s
      rw [Moves.target moves, aside.2.1]
    have new : fs'.entry (draft l) = fs.entry (draft l) := by
      have third := Moves.third moves names.path_draft names.backup_draft []
      rw [List.append_nil] at third
      exact third
    refine ⟨⟨by rw [new]; exact cell.leaf, Or.inl untouched⟩, untouched, new, ?_⟩
    exact Moves.only moves (within_backup l) (within_path l)
  · rename_i missing
    exact absurd (FileTree.rename_notFound missing beside proper') there
  · cases goes

theorem removeFileIfExists_spec {y : Loc} (goes : removeFileIfExists y fs = some fs') :
    fs.entry y ≠ some .dir ∧ Sets y none fs fs' := by
  unfold removeFileIfExists ifFound at goes
  split at goes
  · rename_i removed
    cases goes
    exact FileTree.unlink_ok removed
  · rename_i missing
    cases goes
    have empty := FileTree.unlink_notFound missing
    refine ⟨by rw [empty]; exact nofun, ?_⟩
    intro x
    split
    · rename_i same
      rw [same, empty]
    · rfl
  · cases goes

theorem removeEntryIfExists_spec {y : Loc} (goes : removeEntryIfExists y fs = some fs')
    (leaf : fs.entry y ≠ some .dir) : Sets y none fs fs' := by
  unfold removeEntryIfExists at goes
  rw [if_neg leaf] at goes
  exact (removeFileIfExists_spec goes).2

end Cells

end OmarchyPool.PkgStore
