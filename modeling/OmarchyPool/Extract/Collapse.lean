/-
# OmarchyPool.Extract.Collapse -- the symbol versions a package needs

Of the symbol versions a package needs, `pkg-extract` keeps one for each library and namespace, the
highest: a library that defines `GLIBC_2.34` defines every `GLIBC_2.x` before it.  A need that carries no
number is meant to be kept as it is, but its whole name is its namespace, so `NS` and `NS_1.2` come under
one key and only one of them is kept.

What the client's check says of the needs is what it says of those that are kept exactly when no name is
needed both ways (`keepsVerdict_iff`).
-/
import Mathlib
import OmarchyPool.Lib.SortedMap
import OmarchyPool.Manifest.Dependency
import OmarchyPool.Manifest.VersionOrder

namespace OmarchyPool.Extract

open Lib Manifest

set_option autoImplicit false

/-- The bytes of a `str`. -/
def asBytes (s : Text) : Bytes := s.flatMap String.utf8EncodeChar

/-- `GLIBC_2.34` is `2.34` of `GLIBC`; `GLIBC_ABI_DT_RELR` has no version.  The client's
`split_namespace` is the same. -/
def splitSymbolVersion (sym : Text) : Text × Option Text :=
  match cutAtLast ['_'] sym with
  | some (ns, ver) => if ver.head?.any Char.isDigit then (ns, some ver) else (sym, none)
  | none => (sym, none)

/-- In the order of their bytes, which is that of their characters. -/
abbrev Key := Text ×ₗ Text

/-- What a need is kept under. -/
def keyOf (need : DependencyRule) : Option Key :=
  need.symbolVersion.map fun sym => toLex (need.name, (splitSymbolVersion sym).1)

/-- The number a need carries. -/
def versionOf (need : DependencyRule) : Option Text :=
  need.symbolVersion.bind fun sym => (splitSymbolVersion sym).2

/-- One round of the loop of `collapse_version_needs`. -/
def keepHighest (best : SortedMap Key DependencyRule) (need : DependencyRule) : SortedMap Key DependencyRule :=
  match keyOf need with
  | none => best
  | some key =>
      match best.get key, versionOf need with
      | some current, some version =>
          let curVer := (versionOf current).getD []
          if vercmp (asBytes version) (asBytes curVer) = .gt then best.insert key need else best
      | some _, none => best
      | none, _ => best.insert key need

def collapseVersionNeeds (needs : List DependencyRule) : List DependencyRule :=
  (needs.foldl keepHighest SortedMap.empty).entries.map Prod.snd

/-! ## The client's check -/

/-- What `SystemAbi::defined_versions` says of a library: nothing when it is not installed. -/
abbrev SystemAbi := Text → Option (List Text)

inductive Severity where
  | ok | warning | blocker
deriving DecidableEq, Repr

/-- `classify`, of a soname that the transaction does not provide; `known` when a package of the local
database does. -/
def classify (known : Bool) (abi : SystemAbi) (rule : DependencyRule) : Severity :=
  match abi rule.name with
  | none => if known then .ok else .warning
  | some defined =>
      match rule.symbolVersion with
      | none => .ok
      | some need => if defined.contains need then .ok else .blocker

/-- The library a need names is there and defines its symbol version. -/
def Defined (abi : SystemAbi) (need : DependencyRule) : Prop :=
  ∃ defined sym, abi need.name = some defined ∧ need.symbolVersion = some sym ∧ sym ∈ defined

theorem classify_blocker_iff {known : Bool} {abi : SystemAbi} {rule : DependencyRule} {sym : Text}
    (needs : rule.symbolVersion = some sym) :
    classify known abi rule = .blocker ↔ (abi rule.name).isSome = true ∧ ¬ Defined abi rule := by
  unfold classify Defined
  cases lib : abi rule.name with
  | none => cases known <;> simp
  | some defined => by_cases present : sym ∈ defined <;> simp [needs, present]

/-- With a version that a library defines it defines the lower ones of its namespace, among those that are
asked for: no library defines every text that `vercmp` puts below a version. -/
def DownwardClosed (abi : SystemAbi) (needs : List DependencyRule) : Prop :=
  ∀ need ∈ needs, ∀ lower ∈ needs, keyOf need = keyOf lower →
    ∀ version ∈ versionOf need, ∀ lowerVersion ∈ versionOf lower,
      vercmp (asBytes lowerVersion) (asBytes version) ≠ .gt → Defined abi need → Defined abi lower

/-- The verdict is kept, of the libraries and of the check, and with it every need that carries no number. -/
structure KeepsVerdict (needs : List DependencyRule) : Prop where
  defined : ∀ abi, DownwardClosed abi needs →
    ((∀ need ∈ needs, Defined abi need) ↔ ∀ need ∈ collapseVersionNeeds needs, Defined abi need)
  blockers : ∀ known abi, DownwardClosed abi needs →
    ((∀ need ∈ needs, classify known abi need ≠ .blocker) ↔
      ∀ need ∈ collapseVersionNeeds needs, classify known abi need ≠ .blocker)
  unnumbered : ∀ need ∈ needs, versionOf need = none →
    ∃ kept ∈ collapseVersionNeeds needs, kept.name = need.name ∧ kept.symbolVersion = need.symbolVersion

/-- No library is needed for a name both by itself and with a number. -/
def Apart (needs : List DependencyRule) : Prop :=
  ∀ need ∈ needs, ∀ other ∈ needs, keyOf need = keyOf other → (versionOf need).isSome = (versionOf other).isSome

/-! ## The round -/

/-- The number of a need is above that of the one that is kept, which may have none. -/
def Supersedes (need current : DependencyRule) : Prop :=
  ∃ version, versionOf need = some version ∧
    vercmp (asBytes version) (asBytes ((versionOf current).getD [])) = .gt

theorem keepHighest_cases (best : SortedMap Key DependencyRule) {need : DependencyRule} {key : Key}
    (keyed : keyOf need = some key) :
    (keepHighest best need = best.insert key need ∧ ∀ current, best.get key = some current → Supersedes need current) ∨
      (keepHighest best need = best ∧ ∃ current, best.get key = some current ∧ ¬ Supersedes need current) := by
  simp only [keepHighest, keyed]
  cases held : best.get key with
  | none => exact .inl ⟨rfl, by simp⟩
  | some current =>
      cases numbered : versionOf need with
      | none =>
          refine .inr ⟨rfl, current, rfl, ?_⟩
          rintro ⟨version, carries, -⟩
          rw [numbered] at carries
          cases carries
      | some version =>
          by_cases above : vercmp (asBytes version) (asBytes ((versionOf current).getD [])) = .gt
          · refine .inl ⟨by simp [above], ?_⟩
            rintro _ ⟨⟩
            exact ⟨version, numbered, above⟩
          · refine .inr ⟨by simp [above], current, rfl, ?_⟩
            rintro ⟨other, carries, higher⟩
            rw [numbered, Option.some.injEq] at carries
            subst carries
            exact above higher

/-- What is kept under a key is one of the needs, and its key is that key; and every need has one kept
under its key. -/
structure Kept (needs : List DependencyRule) (best : SortedMap Key DependencyRule) : Prop where
  sound : ∀ key kept, best.get key = some kept → kept ∈ needs ∧ keyOf kept = some key
  covers : ∀ need ∈ needs, ∀ key, keyOf need = some key → ∃ kept, best.get key = some kept

theorem Kept.keep {needs : List DependencyRule} {best : SortedMap Key DependencyRule} (kept : Kept needs best)
    (need : DependencyRule) : Kept (needs ++ [need]) (keepHighest best need) := by
  cases keyed : keyOf need with
  | none =>
      have same : keepHighest best need = best := by rw [keepHighest, keyed]
      rw [same]
      constructor
      · intro key held get
        obtain ⟨member, its⟩ := kept.sound key held get
        exact ⟨List.mem_append_left _ member, its⟩
      · intro other member key its
        rcases List.mem_append.mp member with before | here
        · exact kept.covers other before key its
        · rw [List.mem_singleton.mp here, keyed] at its
          cases its
  | some key =>
      rcases keepHighest_cases best keyed with ⟨eq, -⟩ | ⟨eq, current, held, -⟩
      · rw [eq]
        constructor
        · intro other held get
          rw [SortedMap.get_insert] at get
          split at get
          · rename_i here
            rw [Option.some.injEq] at get
            subst here get
            exact ⟨by simp, keyed⟩
          · obtain ⟨member, its⟩ := kept.sound other held get
            exact ⟨List.mem_append_left _ member, its⟩
        · intro other member otherKey its
          rw [SortedMap.get_insert]
          split
          · exact ⟨need, rfl⟩
          · rename_i elsewhere
            rcases List.mem_append.mp member with before | here
            · exact kept.covers other before otherKey its
            · rw [List.mem_singleton.mp here, keyed, Option.some.injEq] at its
              exact absurd its elsewhere
      · rw [eq]
        constructor
        · intro other kept' get
          obtain ⟨member, its⟩ := kept.sound other kept' get
          exact ⟨List.mem_append_left _ member, its⟩
        · intro other member otherKey its
          rcases List.mem_append.mp member with before | here
          · exact kept.covers other before otherKey its
          · rw [List.mem_singleton.mp here, keyed, Option.some.injEq] at its
            subst its
            exact ⟨current, held⟩

theorem Kept.foldl {needs : List DependencyRule} {best : SortedMap Key DependencyRule} (kept : Kept needs best)
    (rest : List DependencyRule) : Kept (needs ++ rest) (rest.foldl keepHighest best) := by
  induction rest generalizing needs best with
  | nil => simpa using kept
  | cons need rest ih => simpa using ih (kept.keep need)

theorem kept_collapse (needs : List DependencyRule) : Kept needs (needs.foldl keepHighest SortedMap.empty) := by
  have start : Kept [] (SortedMap.empty : SortedMap Key DependencyRule) := ⟨by simp, by simp⟩
  simpa using start.foldl needs

theorem mem_collapse {needs : List DependencyRule} {kept : DependencyRule} :
    kept ∈ collapseVersionNeeds needs ↔
      ∃ key, (needs.foldl keepHighest SortedMap.empty).get key = some kept := by
  unfold collapseVersionNeeds
  rw [List.mem_map]
  constructor
  · rintro ⟨entry, member, rfl⟩
    exact ⟨entry.1, SortedMap.mem_entries.mp member⟩
  · rintro ⟨key, get⟩
    exact ⟨(key, kept), SortedMap.mem_entries.mpr get, rfl⟩

theorem collapse_subset {needs : List DependencyRule} {kept : DependencyRule}
    (member : kept ∈ collapseVersionNeeds needs) : kept ∈ needs := by
  obtain ⟨key, get⟩ := mem_collapse.mp member
  exact ((kept_collapse needs).sound key kept get).1

/-- One need is kept for a key. -/
theorem eq_of_keyOf_eq {needs : List DependencyRule} {one two : DependencyRule}
    (first : one ∈ collapseVersionNeeds needs) (second : two ∈ collapseVersionNeeds needs)
    (same : keyOf one = keyOf two) : one = two := by
  obtain ⟨key, get⟩ := mem_collapse.mp first
  obtain ⟨key', get'⟩ := mem_collapse.mp second
  rw [((kept_collapse needs).sound key one get).2, ((kept_collapse needs).sound key' two get').2,
    Option.some.injEq] at same
  rw [same, get', Option.some.injEq] at get
  exact get.symm

/-! ## What is kept stands for the rest -/

section Verdict

variable {abi : SystemAbi} {needs : List DependencyRule}

theorem name_of_keyOf {need : DependencyRule} {key : Key} (keyed : keyOf need = some key) :
    need.name = (ofLex key).1 := by
  obtain ⟨sym, -, rfl⟩ := Option.map_eq_some_iff.mp keyed
  rfl

/-- A need without a number is its key. -/
theorem symbolVersion_eq {one two : DependencyRule} {key : Key} (first : keyOf one = some key)
    (second : keyOf two = some key) (plain : versionOf one = none) (plain' : versionOf two = none) :
    one.name = two.name ∧ one.symbolVersion = two.symbolVersion := by
  have whole : ∀ sym, (splitSymbolVersion sym).2 = none → (splitSymbolVersion sym).1 = sym := by
    intro sym
    unfold splitSymbolVersion
    split
    · split
      · intro none
        cases none
      · intro
        rfl
    · intro
      rfl
  obtain ⟨sym, needed, eq⟩ := Option.map_eq_some_iff.mp first
  obtain ⟨sym', needed', eq'⟩ := Option.map_eq_some_iff.mp second
  rw [← eq'] at eq
  have pair : (one.name, (splitSymbolVersion sym).1) = (two.name, (splitSymbolVersion sym').1) := eq
  simp only [versionOf, needed, needed', Option.bind_some] at plain plain'
  rw [whole sym plain, whole sym' plain', Prod.mk.injEq] at pair
  exact ⟨pair.1, by rw [needed, needed', pair.2]⟩

theorem Defined.congr {one two : DependencyRule} (name : one.name = two.name)
    (sym : one.symbolVersion = two.symbolVersion) (defined : Defined abi one) : Defined abi two := by
  unfold Defined at defined ⊢
  rwa [name, sym] at defined

/-- Of two needs under one key, the one that is not superseded is defined when the other is. -/
theorem defined_of_not_supersedes (closed : DownwardClosed abi needs) (apart : Apart needs)
    {need current : DependencyRule} {key : Key} (member : need ∈ needs) (held : current ∈ needs)
    (keyed : keyOf need = some key) (its : keyOf current = some key) (not : ¬ Supersedes need current)
    (defined : Defined abi current) : Defined abi need := by
  have same : keyOf current = keyOf need := its.trans keyed.symm
  have alike := apart current held need member same
  cases numbered : versionOf need with
  | none =>
      rw [numbered] at alike
      have plain : versionOf current = none := by simpa using alike
      obtain ⟨name, sym⟩ := symbolVersion_eq its keyed plain numbered
      exact defined.congr name sym
  | some version =>
      rw [numbered] at alike
      obtain ⟨curVer, carries⟩ := Option.isSome_iff_exists.mp (by simpa using alike)
      apply closed current held need member same curVer carries version numbered _ defined
      intro above
      exact not ⟨version, numbered, by rw [carries]; exact above⟩

theorem defined_of_supersedes (closed : DownwardClosed abi needs) (apart : Apart needs)
    {need current : DependencyRule} {key : Key} (member : need ∈ needs) (held : current ∈ needs)
    (keyed : keyOf need = some key) (its : keyOf current = some key) (supersedes : Supersedes need current)
    (defined : Defined abi need) : Defined abi current := by
  have same : keyOf need = keyOf current := keyed.trans its.symm
  obtain ⟨version, numbered, above⟩ := supersedes
  have alike := apart need member current held same
  rw [numbered] at alike
  obtain ⟨curVer, carries⟩ := Option.isSome_iff_exists.mp (by simpa using alike.symm)
  rw [carries] at above
  apply closed need member current held same version numbered curVer carries _ defined
  have below : vercmp (asBytes curVer) (asBytes version) = .lt := by
    rw [vercmp_swap, show vercmp (asBytes version) (asBytes curVer) = .gt from above]
    rfl
  simp [below]

/-- Of the needs seen, each is defined when what is kept under its key is. -/
def StandsFor (abi : SystemAbi) (seen : List DependencyRule) (best : SortedMap Key DependencyRule) : Prop :=
  ∀ need ∈ seen, ∀ key, keyOf need = some key → ∀ kept, best.get key = some kept → Defined abi kept → Defined abi need

theorem StandsFor.keep (closed : DownwardClosed abi needs) (apart : Apart needs) {seen : List DependencyRule}
    {best : SortedMap Key DependencyRule} (stands : StandsFor abi seen best) (kept : Kept seen best)
    {need : DependencyRule} (within : ∀ other ∈ seen ++ [need], other ∈ needs) :
    StandsFor abi (seen ++ [need]) (keepHighest best need) := by
  have member : need ∈ needs := within need (by simp)
  intro other seenOr otherKey its held get defined
  cases keyed : keyOf need with
  | none =>
      have same : keepHighest best need = best := by rw [keepHighest, keyed]
      rw [same] at get
      rcases List.mem_append.mp seenOr with before | here
      · exact stands other before otherKey its held get defined
      · rw [List.mem_singleton.mp here, keyed] at its
        cases its
  | some key =>
      rcases keepHighest_cases best keyed with ⟨eq, higher⟩ | ⟨eq, current, holds, not⟩
      · rw [eq, SortedMap.get_insert] at get
        rcases List.mem_append.mp seenOr with before | here
        · split at get
          · -- the new need takes the place of what stood for the others of its key
            rename_i same
            rw [Option.some.injEq] at get
            subst same get
            obtain ⟨current, holds⟩ := kept.covers other before key its
            obtain ⟨currentSeen, currentKey⟩ := kept.sound key current holds
            apply stands other before key its current holds
            exact defined_of_supersedes closed apart member (within current (List.mem_append_left _ currentSeen))
              keyed currentKey (higher current holds) defined
          · exact stands other before otherKey its held get defined
        · obtain rfl := List.mem_singleton.mp here
          rw [keyed, Option.some.injEq] at its
          rw [if_pos its, Option.some.injEq] at get
          rwa [get]
      · rw [eq] at get
        rcases List.mem_append.mp seenOr with before | here
        · exact stands other before otherKey its held get defined
        · obtain rfl := List.mem_singleton.mp here
          rw [keyed, Option.some.injEq] at its
          subst its
          rw [holds, Option.some.injEq] at get
          subst get
          obtain ⟨currentSeen, currentKey⟩ := kept.sound key current holds
          exact defined_of_not_supersedes closed apart member (within current (List.mem_append_left _ currentSeen))
            keyed currentKey not defined

theorem StandsFor.foldl (closed : DownwardClosed abi needs) (apart : Apart needs) {seen : List DependencyRule}
    {best : SortedMap Key DependencyRule} (stands : StandsFor abi seen best) (kept : Kept seen best)
    (rest : List DependencyRule) (within : ∀ need ∈ seen ++ rest, need ∈ needs) :
    StandsFor abi (seen ++ rest) (rest.foldl keepHighest best) := by
  induction rest generalizing seen best with
  | nil => simpa using stands
  | cons need rest ih =>
      have front : ∀ other ∈ seen ++ [need], other ∈ needs := by
        intro other member
        apply within other
        rw [List.append_cons]
        exact List.mem_append_left rest member
      have next := ih (stands.keep closed apart kept front) (kept.keep need) (by simpa using within)
      simpa using next

theorem defined_of_collapse (closed : DownwardClosed abi needs) (apart : Apart needs)
    (all : ∀ need ∈ needs, need.symbolVersion.isSome = true)
    (kept : ∀ need ∈ collapseVersionNeeds needs, Defined abi need) :
    ∀ need ∈ needs, Defined abi need := by
  intro need member
  have stands : StandsFor abi needs (needs.foldl keepHighest SortedMap.empty) := by
    have start : StandsFor abi [] (SortedMap.empty : SortedMap Key DependencyRule) := by
      intro _ absurd
      cases absurd
    have whole := start.foldl closed apart ⟨by simp, by simp⟩ needs (by simp)
    simpa using whole
  obtain ⟨sym, needed⟩ := Option.isSome_iff_exists.mp (all need member)
  have keyed : keyOf need = some (toLex (need.name, (splitSymbolVersion sym).1)) := by rw [keyOf, needed]; rfl
  obtain ⟨held, get⟩ := (kept_collapse needs).covers need member _ keyed
  exact stands need member _ keyed held get (kept held (mem_collapse.mpr ⟨_, get⟩))

end Verdict

/-! ## Exactly when -/

section Granted

/-- The same libraries, and for each that is not installed one that defines all that is asked of it. -/
def SystemAbi.granting (abi : SystemAbi) (needs : List DependencyRule) : SystemAbi := fun name =>
  (abi name).or (some (needs.filterMap (·.symbolVersion)))

variable {abi : SystemAbi} {needs : List DependencyRule} {need : DependencyRule}

theorem defined_granting_of_absent (member : need ∈ needs) (needed : need.symbolVersion.isSome = true)
    (absent : abi need.name = none) : Defined (abi.granting needs) need := by
  obtain ⟨sym, its⟩ := Option.isSome_iff_exists.mp needed
  refine ⟨_, sym, by rw [SystemAbi.granting, absent]; rfl, its, ?_⟩
  exact List.mem_filterMap.mpr ⟨need, member, its⟩

theorem defined_granting_of_installed (installed : (abi need.name).isSome = true) :
    Defined (abi.granting needs) need ↔ Defined abi need := by
  unfold Defined SystemAbi.granting
  rw [Option.or_of_isSome installed]

/-- A library that is not installed blocks nothing. -/
theorem classify_ne_blocker_iff (known : Bool) (member : need ∈ needs)
    (needed : need.symbolVersion.isSome = true) :
    classify known abi need ≠ .blocker ↔ Defined (abi.granting needs) need := by
  obtain ⟨sym, its⟩ := Option.isSome_iff_exists.mp needed
  rw [ne_eq, classify_blocker_iff its]
  cases lib : abi need.name with
  | none => simpa using defined_granting_of_absent member needed lib
  | some defined =>
      rw [defined_granting_of_installed (by rw [lib]; rfl)]
      simp

theorem DownwardClosed.granting (closed : DownwardClosed abi needs)
    (all : ∀ need ∈ needs, need.symbolVersion.isSome = true) : DownwardClosed (abi.granting needs) needs := by
  intro need member lower lowerMember same version numbered lowerVersion lowerNumbered below defined
  cases lib : abi lower.name with
  | none => exact defined_granting_of_absent lowerMember (all lower lowerMember) lib
  | some there =>
      have keyed : (keyOf need).isSome = true := by simpa [keyOf] using all need member
      obtain ⟨key, its⟩ := Option.isSome_iff_exists.mp keyed
      have name : need.name = lower.name :=
        (name_of_keyOf its).trans (name_of_keyOf (same.symm.trans its)).symm
      rw [defined_granting_of_installed (by rw [name, lib]; rfl)] at defined
      rw [defined_granting_of_installed (by rw [lib]; rfl)]
      exact closed need member lower lowerMember same version numbered lowerVersion lowerNumbered below defined

end Granted

theorem keepsVerdict_of_apart {needs : List DependencyRule}
    (all : ∀ need ∈ needs, need.symbolVersion.isSome = true) (apart : Apart needs) : KeepsVerdict needs := by
  have defined : ∀ abi, DownwardClosed abi needs →
      ((∀ need ∈ needs, Defined abi need) ↔ ∀ need ∈ collapseVersionNeeds needs, Defined abi need) := by
    intro abi closed
    constructor
    · intro defined kept member
      exact defined kept (collapse_subset member)
    · exact defined_of_collapse closed apart all
  refine ⟨defined, ?_, ?_⟩
  · intro known abi closed
    have blocks : ∀ need ∈ needs, classify known abi need ≠ .blocker ↔ Defined (abi.granting needs) need :=
      fun need member => classify_ne_blocker_iff known member (all need member)
    rw [forall₂_congr blocks, defined _ (closed.granting all)]
    exact forall₂_congr fun need member => (blocks need (collapse_subset member)).symm
  · intro need member plain
    obtain ⟨sym, needed⟩ := Option.isSome_iff_exists.mp (all need member)
    have keyed : keyOf need = some (toLex (need.name, (splitSymbolVersion sym).1)) := by rw [keyOf, needed]; rfl
    obtain ⟨held, get⟩ := (kept_collapse needs).covers need member _ keyed
    obtain ⟨seen, its⟩ := (kept_collapse needs).sound _ held get
    have alike := apart held seen need member (its.trans keyed.symm)
    rw [plain] at alike
    obtain ⟨name, same⟩ := symbolVersion_eq its keyed (by simpa using alike) plain
    exact ⟨held, mem_collapse.mpr ⟨_, get⟩, name, same⟩

section Missing

/-- What a library that lacks the numbered versions under a key defines. -/
def without (needs : List DependencyRule) (key : Option Key) : SystemAbi := fun name =>
  some ((needs.filter fun need => need.name = name ∧ ¬ (keyOf need = key ∧ (versionOf need).isSome)).filterMap
    (·.symbolVersion))

theorem defined_without {needs : List DependencyRule} {key : Option Key} {need : DependencyRule}
    (member : need ∈ needs) (needed : need.symbolVersion.isSome = true) :
    Defined (without needs key) need ↔ ¬ (keyOf need = key ∧ (versionOf need).isSome = true) := by
  obtain ⟨sym, its⟩ := Option.isSome_iff_exists.mp needed
  constructor
  · rintro ⟨defined, sym', lib, its', present⟩
    obtain rfl := Option.some.inj lib
    obtain ⟨other, there, same⟩ := List.mem_filterMap.mp present
    simp only [List.mem_filter, decide_eq_true_eq] at there
    obtain ⟨-, name, lacks⟩ := there
    have keys : keyOf other = keyOf need := by rw [keyOf, keyOf, same, its', name]
    have versions : versionOf other = versionOf need := by rw [versionOf, versionOf, same, its']
    rwa [keys, versions] at lacks
  · intro lacks
    refine ⟨_, sym, rfl, its, List.mem_filterMap.mpr ⟨need, ?_, its⟩⟩
    exact List.mem_filter.mpr ⟨member, decide_eq_true ⟨rfl, lacks⟩⟩

theorem downwardClosed_without {needs : List DependencyRule} (key : Option Key)
    (all : ∀ need ∈ needs, need.symbolVersion.isSome = true) : DownwardClosed (without needs key) needs := by
  intro need member lower lowerMember same version numbered lowerVersion lowerNumbered _ defined
  rw [defined_without member (all need member)] at defined
  rw [defined_without lowerMember (all lower lowerMember)]
  rintro ⟨lacks, -⟩
  exact defined ⟨same.trans lacks, by rw [Option.mem_def.mp numbered]; rfl⟩

end Missing

theorem apart_of_keepsVerdict {needs : List DependencyRule}
    (all : ∀ need ∈ needs, need.symbolVersion.isSome = true) (keeps : KeepsVerdict needs) : Apart needs := by
  -- a need without a number is kept, so nothing numbered under its key is, and no library has to define it
  have clash : ∀ need ∈ needs, ∀ other ∈ needs, keyOf need = keyOf other → versionOf need = none →
      (versionOf other).isSome = true → False := by
    intro need member other otherMember same plain numbered
    obtain ⟨kept, keptMember, name, sym⟩ := keeps.unnumbered need member plain
    have keptKey : keyOf kept = keyOf other := by rw [← same, keyOf, keyOf, name, sym]
    have keptPlain : versionOf kept = none := by rw [← plain, versionOf, versionOf, sym]
    have closed := downwardClosed_without (keyOf other) all
    have rest : ∀ need ∈ collapseVersionNeeds needs, Defined (without needs (keyOf other)) need := by
      intro there thereMember
      rw [defined_without (collapse_subset thereMember) (all there (collapse_subset thereMember))]
      rintro ⟨key, thereNumbered⟩
      rw [eq_of_keyOf_eq thereMember keptMember (key.trans keptKey.symm), keptPlain] at thereNumbered
      cases thereNumbered
    have defined := ((keeps.defined _ closed).mpr rest) other otherMember
    rw [defined_without otherMember (all other otherMember)] at defined
    exact defined ⟨rfl, numbered⟩
  intro need member other otherMember same
  cases one : versionOf need with
  | none =>
      cases two : versionOf other with
      | none => rfl
      | some _ => exact (clash need member other otherMember same one (by rw [two]; rfl)).elim
  | some _ =>
      cases two : versionOf other with
      | none => exact (clash other otherMember need member same.symm two (by rw [one]; rfl)).elim
      | some _ => rfl

/-- The verdict on the needs of a package is that on those it keeps exactly when no library is needed for
a name both by itself and with a number. -/
theorem keepsVerdict_iff (needs : List DependencyRule)
    (all : ∀ need ∈ needs, need.symbolVersion.isSome = true) : KeepsVerdict needs ↔ Apart needs :=
  ⟨apart_of_keepsVerdict all, keepsVerdict_of_apart all⟩

def symbolNeed (name sym : String) : DependencyRule := ⟨name.toList, none, some sym.toList⟩

theorem keepsVerdict_libc :
    KeepsVerdict [symbolNeed "libc.so.6" "GLIBC_2.14", symbolNeed "libc.so.6" "GLIBC_2.34",
      symbolNeed "libc.so.6" "GLIBC_ABI_DT_RELR"] :=
  (keepsVerdict_iff _ (by decide)).mpr (by unfold Apart; decide)

/-- `OPENSSL` and `OPENSSL_3.0.0` of one library: in either order the numbered one is kept. -/
theorem not_keepsVerdict_openssl :
    ¬ KeepsVerdict [symbolNeed "libssl.so.3" "OPENSSL_3.0.0", symbolNeed "libssl.so.3" "OPENSSL"] := by
  intro keeps
  obtain ⟨kept, member, -, sym⟩ := keeps.unnumbered (symbolNeed "libssl.so.3" "OPENSSL") (by decide) (by decide)
  have only : collapseVersionNeeds [symbolNeed "libssl.so.3" "OPENSSL_3.0.0", symbolNeed "libssl.so.3" "OPENSSL"] =
      [symbolNeed "libssl.so.3" "OPENSSL_3.0.0"] := by decide
  rw [only, List.mem_singleton] at member
  rw [member] at sym
  exact absurd sym (by decide)

end OmarchyPool.Extract
