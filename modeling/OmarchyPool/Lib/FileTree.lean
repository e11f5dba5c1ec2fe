/-
# OmarchyPool.Lib.FileTree -- a file system's tree, its single operations and its name lookup

A tree gives each location its entry: a directory, a file or a link.  Every entry stands in a
directory and there are finitely many, and a tree carries both.  The operations are those of the
system calls: create, unlink, remove an empty directory, and rename, which takes along whatever is
inside.  A name is looked up one component at a time, through the links on the way; what a lookup
finds, and what it passes, depends only on the links at the locations it passed (`walk_congr`).
-/
import Mathlib.Data.List.Infix

namespace OmarchyPool.Lib

set_option autoImplicit false

/-- The names from the root down. -/
abbrev Loc := List String

inductive Entry (γ : Type) where
  | dir
  | file (content : γ)
  | link (absolute : Bool) (target : List String)
  deriving DecidableEq

structure FileTree (γ : Type) where
  entry : Loc → Option (Entry γ)
  names : List Loc
  finite : ∀ loc, entry loc ≠ none → loc ∈ names
  root : entry [] = some .dir
  rooted : ∀ loc name, entry (loc ++ [name]) ≠ none → entry loc = some .dir

/-- Why a call fails; a caller tells a missing name from the rest. -/
inductive Errno where
  | notFound
  | other
  deriving DecidableEq

namespace FileTree

variable {γ : Type}

section Shape

variable (fs : FileTree γ)

/-- What is no directory has nothing inside. -/
theorem nothing_inside {loc : Loc} (leaf : fs.entry loc ≠ some .dir) (inside : List String)
    (proper : inside ≠ []) : fs.entry (loc ++ inside) = none := by
  induction inside using List.reverseRecOn with
  | nil => exact absurd rfl proper
  | append_singleton front name ih =>
      by_contra there
      rw [← List.append_assoc] at there
      have parent := fs.rooted (loc ++ front) name there
      cases front with
      | nil =>
          rw [List.append_nil] at parent
          exact leaf parent
      | cons first rest =>
          rw [ih (List.cons_ne_nil first rest)] at parent
          cases parent

/-- Nothing is inside. -/
def Bare (loc : Loc) : Prop := ∀ other ∈ fs.names, loc <+: other → other = loc ∨ fs.entry other = none

instance [DecidableEq γ] (loc : Loc) : Decidable (fs.Bare loc) := by
  unfold Bare
  infer_instance

variable {fs}

theorem Bare.nothing {loc : Loc} (bare : fs.Bare loc) {inside : List String} (proper : inside ≠ []) :
    fs.entry (loc ++ inside) = none := by
  by_contra there
  rcases bare _ (fs.finite _ there) (List.prefix_append loc inside) with same | none
  · exact proper (List.append_right_eq_self.mp same)
  · exact there none

theorem bare_of_leaf {loc : Loc} (leaf : fs.entry loc ≠ some .dir) : fs.Bare loc := by
  rintro other - ⟨inside, rfl⟩
  by_cases empty : inside = []
  · exact Or.inl (by rw [empty, List.append_nil])
  · exact Or.inr (fs.nothing_inside leaf inside empty)

end Shape

/-! ## The operations -/

/-- A new entry at a free location of a directory. -/
def put (fs : FileTree γ) (loc : Loc) (e : Entry γ) (parent : fs.entry loc.dropLast = some .dir)
    (free : fs.entry loc = none) : FileTree γ where
  entry other := if other = loc then some e else fs.entry other
  names := loc :: fs.names
  finite := by
    intro other there
    split at there
    · rename_i same
      exact List.mem_cons.mpr (Or.inl same)
    · exact List.mem_cons_of_mem _ (fs.finite other there)
  root := by
    split
    · rename_i same
      rw [← same, fs.root] at free
      cases free
    · exact fs.root
  rooted := by
    intro dir name there
    have isDir : fs.entry dir = some .dir := by
      split at there
      · rename_i same
        rw [← same, List.dropLast_concat] at parent
        exact parent
      · exact fs.rooted dir name there
    split
    · rename_i same
      rw [← same, isDir] at free
      cases free
    · exact isDir

/-- An entry with nothing inside taken away. -/
def erase (fs : FileTree γ) (loc : Loc) (proper : loc ≠ []) (bare : fs.Bare loc) : FileTree γ where
  entry other := if other = loc then none else fs.entry other
  names := fs.names
  finite := by
    intro other there
    split at there
    · exact absurd rfl there
    · exact fs.finite other there
  root := by
    rw [if_neg (Ne.symm proper)]
    exact fs.root
  rooted := by
    intro dir name there
    split at there
    · exact absurd rfl there
    · split
      · rename_i same
        subst same
        exact absurd (bare.nothing (List.cons_ne_nil name [])) there
      · exact fs.rooted dir name there

/-- Everything at and inside `src` taken to `dst`. -/
def move (fs : FileTree γ) (src dst : Loc) (proper : src ≠ []) (target : dst ≠ [])
    (outside : ¬ src <+: dst) (parent : fs.entry dst.dropLast = some .dir) : FileTree γ where
  entry other :=
    if dst <+: other then fs.entry (src ++ other.drop dst.length)
    else if src <+: other then none
    else fs.entry other
  names := fs.names ++ fs.names.map fun other => dst ++ other.drop src.length
  finite := by
    intro other there
    split at there
    · rename_i inside
      obtain ⟨rest, rfl⟩ := inside
      rw [List.drop_left] at there
      refine List.mem_append_right _ (List.mem_map.mpr ⟨src ++ rest, fs.finite _ there, ?_⟩)
      rw [List.drop_left]
    · split at there
      · exact absurd rfl there
      · exact List.mem_append_left _ (fs.finite other there)
  root := by
    rw [if_neg (fun below => target (List.prefix_nil.mp below)),
      if_neg (fun below => proper (List.prefix_nil.mp below))]
    exact fs.root
  rooted := by
    intro dir name there
    by_cases inside : dst <+: dir
    · obtain ⟨rest, rfl⟩ := inside
      rw [if_pos (List.append_assoc dst rest [name] ▸ List.prefix_append dst (rest ++ [name])),
        List.append_assoc, List.drop_left, ← List.append_assoc] at there
      rw [if_pos (List.prefix_append dst rest), List.drop_left]
      exact fs.rooted _ name there
    · by_cases here : dst <+: dir ++ [name]
      · -- The moved entry itself: its directory stands and is not taken along.
        have same : dst = dir ++ [name] := (List.prefix_concat_iff.mp here).resolve_right inside
        subst same
        rw [List.dropLast_concat] at parent
        have stays : ¬ src <+: dir := fun below => outside (below.trans (List.prefix_append dir [name]))
        rw [if_neg inside, if_neg stays]
        exact parent
      · rw [if_neg here] at there
        split at there
        · exact absurd rfl there
        · rename_i away
          have stays : ¬ src <+: dir := fun below => away (below.trans (List.prefix_append dir [name]))
          rw [if_neg inside, if_neg stays]
          exact fs.rooted dir name there

section Calls

variable [DecidableEq γ]

/-- Why nothing is at a location: a name on the way is missing, or is no directory. -/
def absent (fs : FileTree γ) (loc : Loc) : Errno :=
  if loc.inits.all fun front => fs.entry front = none ∨ fs.entry front = some .dir then .notFound
  else .other

def create (fs : FileTree γ) (loc : Loc) (e : Entry γ) : Except Errno (FileTree γ) :=
  if free : fs.entry loc = none then
    if parent : fs.entry loc.dropLast = some .dir then .ok (fs.put loc e parent free)
    else .error (fs.absent loc)
  else .error .other

def unlink (fs : FileTree γ) (loc : Loc) : Except Errno (FileTree γ) :=
  if fs.entry loc = none then .error (fs.absent loc)
  else if leaf : fs.entry loc ≠ some .dir then
    .ok (fs.erase loc (fun root => leaf (root ▸ fs.root)) (bare_of_leaf leaf))
  else .error .other

def rmdir (fs : FileTree γ) (loc : Loc) : Except Errno (FileTree γ) :=
  if fs.entry loc = none then .error (fs.absent loc)
  else if empty : fs.entry loc = some .dir ∧ loc ≠ [] ∧ fs.Bare loc then
    .ok (fs.erase loc empty.2.1 empty.2.2)
  else .error .other

/-- What may stand where an entry is renamed to. -/
def Gives (fs : FileTree γ) (dst : Loc) (isDir : Bool) : Prop :=
  fs.entry dst = none ∨
    if isDir then fs.entry dst = some .dir ∧ fs.Bare dst else fs.entry dst ≠ some .dir

instance (fs : FileTree γ) (dst : Loc) (isDir : Bool) : Decidable (fs.Gives dst isDir) := by
  unfold Gives
  infer_instance

def rename (fs : FileTree γ) (src dst : Loc) : Except Errno (FileTree γ) :=
  if fs.entry src = none then .error (fs.absent src)
  else if src = dst then .ok fs
  else if fits : src ≠ [] ∧ dst ≠ [] ∧ ¬ src <+: dst ∧ fs.entry dst.dropLast = some .dir ∧
      fs.Gives dst (decide (fs.entry src = some .dir)) then
    .ok (fs.move src dst fits.1 fits.2.1 fits.2.2.1 fits.2.2.2.1)
  else if fs.entry dst.dropLast = none then .error (fs.absent dst)
  else .error .other

/-! What a call that went through did. -/

variable {fs fs' : FileTree γ} {loc src dst : Loc}

theorem create_ok {e : Entry γ} (ok : fs.create loc e = .ok fs') :
    fs.entry loc = none ∧ ∀ other, fs'.entry other = if other = loc then some e else fs.entry other := by
  unfold create at ok
  split at ok
  · rename_i free
    split at ok
    · cases ok
      exact ⟨free, fun _ => rfl⟩
    · cases ok
  · cases ok

theorem unlink_ok (ok : fs.unlink loc = .ok fs') :
    fs.entry loc ≠ some .dir ∧ ∀ other, fs'.entry other = if other = loc then none else fs.entry other := by
  unfold unlink at ok
  split at ok
  · cases ok
  · split at ok
    · rename_i leaf
      cases ok
      exact ⟨leaf, fun _ => rfl⟩
    · cases ok

theorem unlink_error {why : Errno} (error : fs.unlink loc = .error why) :
    fs.entry loc = none ∨ fs.entry loc = some .dir := by
  unfold unlink at error
  split at error
  · exact Or.inl ‹_›
  · split at error
    · cases error
    · rename_i dir
      exact Or.inr (not_not.mp dir)

theorem unlink_notFound (error : fs.unlink loc = .error .notFound) : fs.entry loc = none := by
  unfold unlink at error
  split at error
  · assumption
  · split at error
    · cases error
    · cases error

theorem rmdir_ok (ok : fs.rmdir loc = .ok fs') :
    fs.entry loc = some .dir ∧ ∀ other, fs'.entry other = if other = loc then none else fs.entry other := by
  unfold rmdir at ok
  split at ok
  · cases ok
  · split at ok
    · rename_i empty
      cases ok
      exact ⟨empty.1, fun _ => rfl⟩
    · cases ok

theorem rename_ok (ok : fs.rename src dst = .ok fs') (differ : src ≠ dst) :
    fs.entry src ≠ none ∧ fs.Gives dst (decide (fs.entry src = some .dir)) ∧
      ∀ other, fs'.entry other =
        if dst <+: other then fs.entry (src ++ other.drop dst.length)
        else if src <+: other then none
        else fs.entry other := by
  unfold rename at ok
  split at ok
  · cases ok
  · rename_i there
    split at ok
    · rename_i fits
      cases ok
      exact ⟨there, fits.2.2.2.2, fun _ => rfl⟩
    · split at ok
      · cases ok
      · cases ok

/-- Within one directory only a missing source is not found. -/
theorem rename_notFound (error : fs.rename src dst = .error .notFound)
    (beside : src.dropLast = dst.dropLast) (proper : src ≠ []) : fs.entry src = none := by
  unfold rename at error
  split at error
  · assumption
  · rename_i there
    rw [← List.dropLast_append_getLast proper] at there
    have parent := fs.rooted _ _ there
    split at error
    · cases error
    · split at error
      · cases error
      · rw [if_neg (by rw [← beside, parent]; exact Option.some_ne_none _)] at error
        cases error

end Calls

/-! ## The name lookup -/

def linkAt (fs : FileTree γ) (loc : Loc) : Option (Bool × List String) :=
  match fs.entry loc with
  | some (.link absolute target) => some (absolute, target)
  | _ => none

/-- Where the components lead from a directory, every link followed; too many are no location. -/
def walk (fs : FileTree γ) : Nat → Loc → List String → Option Loc
  | 0, _, _ => none
  | _ + 1, dir, [] => some dir
  | n + 1, dir, name :: rest =>
      if name = ".." then fs.walk n dir.dropLast rest
      else
        match fs.linkAt (dir ++ [name]) with
        | some (absolute, target) => fs.walk n (if absolute then [] else dir) (target ++ rest)
        | none => fs.walk n (dir ++ [name]) rest

/-- The locations whose links a lookup asks for. -/
def passed (fs : FileTree γ) : Nat → Loc → List String → List Loc
  | 0, _, _ => []
  | _ + 1, _, [] => []
  | n + 1, dir, name :: rest =>
      if name = ".." then fs.passed n dir.dropLast rest
      else
        (dir ++ [name]) ::
          match fs.linkAt (dir ++ [name]) with
          | some (absolute, target) => fs.passed n (if absolute then [] else dir) (target ++ rest)
          | none => fs.passed n (dir ++ [name]) rest

theorem passed_cons (fs : FileTree γ) (n : Nat) (dir : Loc) (name : String) (rest : List String) :
    fs.passed (n + 1) dir (name :: rest) =
      if name = ".." then fs.passed n dir.dropLast rest
      else
        (dir ++ [name]) ::
          match fs.linkAt (dir ++ [name]) with
          | some (absolute, target) => fs.passed n (if absolute then [] else dir) (target ++ rest)
          | none => fs.passed n (dir ++ [name]) rest := rfl

variable {fs fs' : FileTree γ}

theorem walk_congr (n : Nat) (dir : Loc) (components : List String)
    (same : ∀ loc ∈ fs.passed n dir components, fs'.linkAt loc = fs.linkAt loc) :
    fs'.walk n dir components = fs.walk n dir components ∧
      fs'.passed n dir components = fs.passed n dir components := by
  induction n generalizing dir components with
  | zero => exact ⟨rfl, rfl⟩
  | succ n ih =>
      cases components with
      | nil => exact ⟨rfl, rfl⟩
      | cons name rest =>
          rw [passed_cons] at same
          rw [passed_cons, passed_cons]
          unfold walk
          split
          · rename_i up
            rw [if_pos up] at same
            exact ih _ _ same
          · rename_i down
            rw [if_neg down] at same
            have first := same (dir ++ [name]) List.mem_cons_self
            have later := fun loc mem => same loc (List.mem_cons_of_mem _ mem)
            rw [first]
            revert later
            cases fs.linkAt (dir ++ [name]) with
            | none =>
                intro later
                obtain ⟨walks, passes⟩ := ih _ _ later
                exact ⟨walks, congrArg _ passes⟩
            | some target =>
                intro later
                obtain ⟨walks, passes⟩ := ih _ _ later
                exact ⟨walks, congrArg _ passes⟩

/-- A longer name is looked up from where the shorter one led, past what that one passed. -/
theorem walk_append (n : Nat) (dir : Loc) (front back : List String) {loc : Loc}
    (ends : fs.walk n dir front = some loc) :
    ∃ m, (∀ v ∈ fs.passed n dir front, v ∈ fs.passed n dir (front ++ back)) ∧
      ∀ v ∈ fs.passed (m + 1) loc back, v ∈ fs.passed n dir (front ++ back) := by
  induction n generalizing dir front with
  | zero => cases ends
  | succ n ih =>
      cases front with
      | nil =>
          cases ends
          exact ⟨n, fun v mem => (by cases mem), fun v mem => mem⟩
      | cons name rest =>
          unfold walk at ends
          rw [List.cons_append, passed_cons fs n dir name rest, passed_cons fs n dir name (rest ++ back)]
          split at ends
          · rename_i up
            rw [if_pos up, if_pos up]
            obtain ⟨m, fronts, backs⟩ := ih dir.dropLast rest ends
            exact ⟨m, fronts, backs⟩
          · rename_i down
            rw [if_neg down, if_neg down]
            revert ends
            cases fs.linkAt (dir ++ [name]) with
            | none =>
                intro ends
                obtain ⟨m, fronts, backs⟩ := ih _ rest ends
                refine ⟨m, ?_, fun v mem => List.mem_cons_of_mem _ (backs v mem)⟩
                exact fun v mem => List.mem_cons.mpr ((List.mem_cons.mp mem).imp_right (fronts v))
            | some target =>
                intro ends
                obtain ⟨m, fronts, backs⟩ := ih _ (target.2 ++ rest) ends
                rw [List.append_assoc] at fronts backs
                refine ⟨m, ?_, fun v mem => List.mem_cons_of_mem _ (backs v mem)⟩
                exact fun v mem => List.mem_cons.mpr ((List.mem_cons.mp mem).imp_right (fronts v))

/-- More components than a path can have. -/
def lookupLimit : Nat := 4096

def follow (fs : FileTree γ) (components : List String) : Option Loc :=
  fs.walk lookupLimit [] components

/-- The locations on the way to where the components lead. -/
def route (fs : FileTree γ) (components : List String) : List Loc :=
  fs.passed lookupLimit [] components

/-- Where the components lead, the last of them not followed. -/
def locate (fs : FileTree γ) (components : List String) : Option Loc :=
  match components.getLast? with
  | none => none
  | some name =>
      if name = ".." then none
      else (fs.follow components.dropLast).map (· ++ [name])

theorem locate_congr {components : List String}
    (same : ∀ loc ∈ fs.route components.dropLast, fs'.linkAt loc = fs.linkAt loc) :
    fs'.locate components = fs.locate components := by
  unfold locate follow
  rw [(walk_congr lookupLimit [] components.dropLast same).1]

theorem route_congr {components : List String}
    (same : ∀ loc ∈ fs.route components, fs'.linkAt loc = fs.linkAt loc) :
    fs'.route components = fs.route components :=
  (walk_congr lookupLimit [] components same).2

theorem locate_ne_nil {components : List String} {loc : Loc} (found : fs.locate components = some loc) :
    loc ≠ [] := by
  unfold locate at found
  split at found
  · cases found
  · split at found
    · cases found
    · obtain ⟨dir, -, rfl⟩ := Option.map_eq_some_iff.mp found
      exact List.append_ne_nil_of_right_ne_nil _ (List.cons_ne_nil _ _)

/-- A directory on the way is one the lookup passes, and so is the way to it. -/
theorem locate_mem_route {front : List String} (back : List String) {loc : Loc}
    (found : fs.locate front = some loc) :
    loc ∈ fs.route (front ++ back) ∧
      ∀ v ∈ fs.route front.dropLast, v ∈ fs.route (front ++ back) := by
  unfold locate at found
  split at found
  · cases found
  · rename_i name last
    split at found
    · cases found
    · rename_i down
      obtain ⟨dir, ends, rfl⟩ := Option.map_eq_some_iff.mp found
      have whole : front ++ back = front.dropLast ++ name :: back := by
        obtain ⟨start, rfl⟩ := List.getLast?_eq_some_iff.mp last
        rw [List.dropLast_concat, List.append_assoc, List.singleton_append]
      obtain ⟨m, fronts, backs⟩ := walk_append lookupLimit [] front.dropLast (name :: back) ends
      rw [← whole] at fronts backs
      refine ⟨backs _ ?_, fronts⟩
      rw [passed_cons, if_neg down]
      exact List.mem_cons_self

end FileTree

end OmarchyPool.Lib
