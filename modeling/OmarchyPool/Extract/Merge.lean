/-
# OmarchyPool.Extract.Merge -- the manifest of a package

`merge` puts together what `.PKGINFO` declares and what the ELF objects of the archive need and provide.
The capabilities and the requirements are sets of rules by their text (`RuleSet`): of the rules that print
the same the first is kept.

The rules of a manifest are stored as text and read back from it.  Those that came from a text come back;
those that `merge` builds from names, versions and sonames come back exactly when they are readable, which
nothing here checks (`rules_survive_iff`).
-/
import OmarchyPool.Extract.Collapse
import OmarchyPool.Extract.PkgInfo

namespace OmarchyPool.Extract

open Lib Manifest DependencyRule

set_option autoImplicit false

/-! ## ELF objects -/

/-- What goblin reads of an object; a name it cannot resolve is `none`. -/
structure Elf where
  soname : Option Text
  is64 : Bool
  libraries : List Text
  /-- `.gnu.version_r`: a library, and the versions needed of it. -/
  verneed : List (Option Text × List (Option Text))

structure ElfFacts where
  soname : Option Text
  is64 : Bool
  needed : List Text
  versionNeeds : List DependencyRule
deriving DecidableEq, Repr

def inspect (elf : Elf) : ElfFacts where
  soname := elf.soname
  is64 := elf.is64
  needed := elf.libraries
  versionNeeds := elf.verneed.flatMap fun need =>
    match need.1 with
    | none => []
    | some file => need.2.filterMap fun version => version.map fun version => ⟨file, none, some version⟩

/-- `libz.so.1` on a 64-bit object is `libz.so=1-64`. -/
def archSonameProvide (soname : Text) (is64 : Bool) : Option DependencyRule :=
  (cutAtLast ".so.".toList soname).bind fun split =>
    if split.2.head?.any Char.isDigit then
      some (withConstraint (split.1 ++ ".so".toList) .eq
        (split.2 ++ '-' :: (if is64 then "64".toList else "32".toList)))
    else none

/-! ## Sets of rules -/

/-- In the order of insertion, by their texts. -/
structure RuleSet where
  seen : List Text
  rules : List DependencyRule

namespace RuleSet

def empty : RuleSet := ⟨[], []⟩

def push (set : RuleSet) (rule : DependencyRule) : RuleSet :=
  if rule.display ∈ set.seen then set else ⟨rule.display :: set.seen, set.rules ++ [rule]⟩

def extend (set : RuleSet) (rules : List DependencyRule) : RuleSet := rules.foldl push set

end RuleSet

/-- What `extend_parsed` pushes: the entries that parse. -/
def parsed (raw : List Text) : List DependencyRule := raw.filterMap fun s => (fromStr s).toOption

/-! ## The merge -/

structure PkgInfoFields where
  base : Text
  builddate : UInt64
  packager : Text
  groups : List Text
  depends : List Text
  makedepends : List Text
  checkdepends : List Text
  optdepends : List Text
  provides : List Text
  conflicts : List Text
  replaces : List Text
deriving DecidableEq, Repr

/-- What a manifest says apart from its files. -/
structure PackageManifest where
  name : Text
  version : Text
  arch : Text
  description : Option Text
  url : Option Text
  licenses : List Text
  sizeInstalled : UInt64
  sizeDownload : UInt64
  sha256 : Text
  filename : Text
  pkginfo : PkgInfoFields
  provides : List DependencyRule
  requires : List DependencyRule
  optional : List DependencyRule
  conflicts : List DependencyRule
  replaces : List DependencyRule
deriving DecidableEq, Repr

def pkgInfoFields (info : PkgInfo) (name : Text) : PkgInfoFields where
  base := (info.first "pkgbase".toList).getD name
  builddate := ((info.first "builddate".toList).bind u64FromStr).getD 0
  packager := (info.first "packager".toList).getD []
  groups := info.all "group".toList
  depends := info.all "depend".toList
  makedepends := info.all "makedepend".toList
  checkdepends := info.all "checkdepend".toList
  optdepends := info.all "optdepend".toList
  provides := info.all "provides".toList
  conflicts := info.all "conflict".toList
  replaces := info.all "replaces".toList

/-- Both the raw soname and Arch's form of it. -/
def sonameRules (facts : ElfFacts) : List DependencyRule :=
  match facts.soname with
  | none => []
  | some soname => unversioned soname :: (archSonameProvide soname facts.is64).toList

def ownSonames (elf : List ElfFacts) : List Text := elf.filterMap (·.soname)

/-- The rules pushed on `provides`, in turn. -/
def builtProvides (info : PkgInfo) (elf : List ElfFacts) (name version : Text) : List DependencyRule :=
  withConstraint name .eq version :: (parsed (info.all "provides".toList) ++ elf.flatMap sonameRules)

/-- The rules pushed on `requires`, in turn. -/
def builtRequires (info : PkgInfo) (elf : List ElfFacts) : List DependencyRule :=
  parsed (info.all "depend".toList) ++
    (elf.flatMap fun facts => (facts.needed.filter (· ∉ ownSonames elf)).map unversioned) ++
    collapseVersionNeeds (elf.flatMap fun facts => facts.versionNeeds.filter (·.name ∉ ownSonames elf))

/-- `optdepend = name: why it is useful`, without the reason. -/
def optdependRule (s : Text) : Text := trim (((cutAt [':'] s).map Prod.fst).getD s)

/-- The objects are those of the archive, in its order. -/
def merge (info : PkgInfo) (elf : List ElfFacts) (sha256 : Text) (sizeDownload : UInt64) (filename : Text) :
    Except PkgInfoError PackageManifest := do
  let name ← info.required "pkgname".toList
  let version ← info.required "pkgver".toList
  let arch ← info.required "arch".toList
  return {
    name, version, arch
    description := info.first "pkgdesc".toList
    url := info.first "url".toList
    licenses := info.all "license".toList
    sizeInstalled := ((info.first "size".toList).bind u64FromStr).getD 0
    sizeDownload, sha256, filename
    pkginfo := pkgInfoFields info name
    provides := (RuleSet.empty.extend (builtProvides info elf name version)).rules
    requires := (RuleSet.empty.extend (builtRequires info elf)).rules
    optional := (RuleSet.empty.extend (parsed ((info.all "optdepend".toList).map optdependRule))).rules
    conflicts := (RuleSet.empty.extend (parsed (info.all "conflict".toList))).rules
    replaces := (RuleSet.empty.extend (parsed (info.all "replaces".toList))).rules }

def PackageManifest.rules (manifest : PackageManifest) : List DependencyRule :=
  manifest.provides ++ manifest.requires ++ manifest.optional ++ manifest.conflicts ++ manifest.replaces

/-! ## Which rules are kept -/

namespace RuleSet

/-- What a set has seen is what its rules print. -/
def Sound (set : RuleSet) : Prop := ∀ text, text ∈ set.seen ↔ ∃ rule ∈ set.rules, rule.display = text

theorem Sound.push {set : RuleSet} (sound : set.Sound) (rule : DependencyRule) : (set.push rule).Sound := by
  unfold RuleSet.push
  split
  · exact sound
  · intro text
    simp only [List.mem_cons, List.mem_append, List.not_mem_nil, or_false, sound text]
    constructor
    · rintro (rfl | ⟨kept, member, eq⟩)
      · exact ⟨rule, .inr rfl, rfl⟩
      · exact ⟨kept, .inl member, eq⟩
    · rintro ⟨kept, member | rfl, eq⟩
      · exact .inr ⟨kept, member, eq⟩
      · exact .inl eq.symm

theorem Sound.extend {set : RuleSet} (sound : set.Sound) (rules : List DependencyRule) : (set.extend rules).Sound := by
  induction rules generalizing set with
  | nil => exact sound
  | cons rule rest ih => exact ih (sound.push rule)

theorem sound_empty : empty.Sound := by
  intro text
  simp [empty]

theorem extend_append (set : RuleSet) (front : List DependencyRule) (rule : DependencyRule) :
    set.extend (front ++ [rule]) = (set.extend front).push rule := by
  simp [extend]

/-- Every text that was pushed is there, and nothing else. -/
theorem display_mem_extend {rules : List DependencyRule} {text : Text} :
    (∃ rule ∈ (empty.extend rules).rules, rule.display = text) ↔ ∃ rule ∈ rules, rule.display = text := by
  induction rules using List.reverseRecOn generalizing text with
  | nil => simp [extend, empty]
  | append_singleton front rule ih =>
      rw [extend_append]
      unfold push
      split
      · rename_i seen
        rw [(sound_empty.extend front) rule.display, ih] at seen
        rw [ih]
        constructor
        · rintro ⟨kept, member, eq⟩
          exact ⟨kept, List.mem_append_left _ member, eq⟩
        · rintro ⟨kept, member, eq⟩
          rcases List.mem_append.mp member with before | here
          · exact ⟨kept, before, eq⟩
          · rw [List.mem_singleton.mp here] at eq
            rwa [eq] at seen
      · simp only [List.mem_append, List.mem_singleton, or_and_right, exists_or, exists_eq_left, ih]

/-- A rule is kept when it is the first to print its text. -/
theorem mem_extend {rules : List DependencyRule} {rule : DependencyRule} :
    rule ∈ (empty.extend rules).rules ↔
      ∃ front back, rules = front ++ rule :: back ∧ ∀ earlier ∈ front, earlier.display ≠ rule.display := by
  induction rules using List.reverseRecOn with
  | nil => simp [extend, empty]
  | append_singleton rules last ih =>
      have within : (∃ front back, rules = front ++ rule :: back ∧ ∀ earlier ∈ front, earlier.display ≠ rule.display) →
          ∃ front back, rules ++ [last] = front ++ rule :: back ∧ ∀ earlier ∈ front, earlier.display ≠ rule.display := by
        rintro ⟨front, back, rfl, first⟩
        exact ⟨front, back ++ [last], by simp, first⟩
      have ends : ∀ front back, rules ++ [last] = front ++ rule :: back →
          (∃ back', rules = front ++ rule :: back') ∨ (front = rules ∧ last = rule) := by
        intro front back eq
        rcases List.eq_nil_or_concat' back with rfl | ⟨back', d, rfl⟩
        · obtain ⟨fronts, lasts⟩ := List.append_inj' eq rfl
          exact .inr ⟨fronts.symm, by simpa using lasts⟩
        · rw [← List.cons_append, ← List.append_assoc] at eq
          exact .inl ⟨back', (List.append_inj' eq rfl).1⟩
      have texts := @display_mem_extend rules last.display
      rw [extend_append]
      unfold push
      split
      · rename_i seen
        rw [(sound_empty.extend rules) last.display, texts] at seen
        rw [ih]
        refine ⟨within, ?_⟩
        rintro ⟨front, back, eq, first⟩
        rcases ends front back eq with ⟨back', inside⟩ | ⟨rfl, rfl⟩
        · exact ⟨front, back', inside, first⟩
        · obtain ⟨earlier, member, same⟩ := seen
          exact absurd same (first earlier member)
      · rename_i unseen
        rw [(sound_empty.extend rules) last.display, texts] at unseen
        simp only [List.mem_append, List.mem_singleton, ih]
        constructor
        · rintro (inside | rfl)
          · exact within inside
          · refine ⟨rules, [], rfl, ?_⟩
            intro earlier member same
            exact unseen ⟨earlier, member, same⟩
        · rintro ⟨front, back, eq, first⟩
          rcases ends front back eq with ⟨back', inside⟩ | ⟨-, rfl⟩
          · exact .inl ⟨front, back', inside, first⟩
          · exact .inr rfl

end RuleSet

/-! ## Which rules come back -/

/-- Written as the string it is stored as and read back from it, the rule is the same. -/
def Survives (rule : DependencyRule) : Prop := fromStr rule.display = .ok rule

/-- Of the rules built, each that is not readable comes after one that prints the same. -/
def FirstReadable (built : List DependencyRule) : Prop :=
  ∀ front rule back, built = front ++ rule :: back →
    Readable rule ∨ ∃ earlier ∈ front, earlier.display = rule.display

theorem survives_extend_iff {built : List DependencyRule} :
    (∀ rule ∈ (RuleSet.empty.extend built).rules, Survives rule) ↔ FirstReadable built := by
  constructor
  · intro survive front rule back eq
    by_cases earlier : ∃ earlier ∈ front, earlier.display = rule.display
    · exact .inr earlier
    · have first : ∀ other ∈ front, other.display ≠ rule.display := fun other member same => earlier ⟨other, member, same⟩
      have kept := survive rule (RuleSet.mem_extend.mpr ⟨front, back, eq, first⟩)
      exact .inl (parse_display_iff.mp kept)
  · intro readable rule member
    obtain ⟨front, back, eq, first⟩ := RuleSet.mem_extend.mp member
    rcases readable front rule back eq with here | ⟨earlier, before, same⟩
    · exact parse_display_iff.mpr here
    · exact absurd same (first earlier before)

theorem survives_of_mem_parsed {raw : List Text} {rule : DependencyRule} (member : rule ∈ parsed raw) :
    Survives rule := by
  obtain ⟨s, -, found⟩ := List.mem_filterMap.mp member
  cases read : fromStr s with
  | error e =>
      rw [read] at found
      cases found
  | ok rule' =>
      rw [read] at found
      obtain rfl := Option.some.inj found
      exact fromStr_display read

theorem mem_of_mem_extend {built : List DependencyRule} {rule : DependencyRule}
    (member : rule ∈ (RuleSet.empty.extend built).rules) : rule ∈ built := by
  obtain ⟨front, back, rfl, -⟩ := RuleSet.mem_extend.mp member
  simp

theorem survives_extend_parsed {raw : List Text} {rule : DependencyRule}
    (member : rule ∈ (RuleSet.empty.extend (parsed raw)).rules) : Survives rule :=
  survives_of_mem_parsed (mem_of_mem_extend member)

theorem merge_ok {info : PkgInfo} {elf : List ElfFacts} {sha256 filename : Text} {sizeDownload : UInt64}
    {manifest : PackageManifest} (merged : merge info elf sha256 sizeDownload filename = .ok manifest) :
    info.first "pkgname".toList = some manifest.name ∧ info.first "pkgver".toList = some manifest.version ∧
      info.first "arch".toList = some manifest.arch ∧
      manifest = { manifest with
        description := info.first "pkgdesc".toList
        url := info.first "url".toList
        licenses := info.all "license".toList
        sizeInstalled := ((info.first "size".toList).bind u64FromStr).getD 0
        sizeDownload, sha256, filename
        pkginfo := pkgInfoFields info manifest.name
        provides := (RuleSet.empty.extend (builtProvides info elf manifest.name manifest.version)).rules
        requires := (RuleSet.empty.extend (builtRequires info elf)).rules
        optional := (RuleSet.empty.extend (parsed ((info.all "optdepend".toList).map optdependRule))).rules
        conflicts := (RuleSet.empty.extend (parsed (info.all "conflict".toList))).rules
        replaces := (RuleSet.empty.extend (parsed (info.all "replaces".toList))).rules } := by
  unfold merge at merged
  cases name : info.required "pkgname".toList with
  | error e =>
      rw [name] at merged
      cases merged
  | ok n =>
      cases version : info.required "pkgver".toList with
      | error e =>
          rw [name, version] at merged
          cases merged
      | ok v =>
          cases arch : info.required "arch".toList with
          | error e =>
              rw [name, version, arch] at merged
              cases merged
          | ok a =>
              rw [name, version, arch] at merged
              obtain rfl := Except.ok.inj merged
              exact ⟨PkgInfo.first_of_required name, PkgInfo.first_of_required version,
                PkgInfo.first_of_required arch, rfl⟩

/-- A rule that a text parses as survives its text; the rules of a manifest all do exactly when every rule
built for it, before which none prints the same, is readable. -/
theorem rules_survive_iff {info : PkgInfo} {elf : List ElfFacts} {sha256 filename : Text} {sizeDownload : UInt64}
    {manifest : PackageManifest} (merged : merge info elf sha256 sizeDownload filename = .ok manifest) :
    ((∀ s rule, fromStr s = .ok rule → Survives rule) ∧ ∀ rule ∈ manifest.rules, Survives rule) ↔
      FirstReadable (builtProvides info elf manifest.name manifest.version) ∧
        FirstReadable (builtRequires info elf) := by
  obtain ⟨-, -, -, eq⟩ := merge_ok merged
  have provides := congrArg PackageManifest.provides eq
  have requires := congrArg PackageManifest.requires eq
  have optional := congrArg PackageManifest.optional eq
  have conflicts := congrArg PackageManifest.conflicts eq
  have replaces := congrArg PackageManifest.replaces eq
  simp only at provides requires optional conflicts replaces
  rw [← survives_extend_iff, ← survives_extend_iff, ← provides, ← requires]
  constructor
  · rintro ⟨-, survive⟩
    constructor
    · intro rule member
      exact survive rule (by simp [PackageManifest.rules, member])
    · intro rule member
      exact survive rule (by simp [PackageManifest.rules, member])
  · rintro ⟨provided, required⟩
    refine ⟨fun s rule => fromStr_display, ?_⟩
    intro rule member
    simp only [PackageManifest.rules, List.mem_append] at member
    rcases member with (((member | member) | member) | member) | member
    · exact provided rule member
    · exact required rule member
    · rw [optional] at member
      exact survives_extend_parsed member
    · rw [conflicts] at member
      exact survives_extend_parsed member
    · rw [replaces] at member
      exact survives_extend_parsed member

/-! ## A program that needs one library -/

def fleaInfo : PkgInfo :=
  ((PkgInfo.mk .empty).push "pkgname".toList "flea".toList |>.push "pkgver".toList "1.2.0-1".toList
    |>.push "arch".toList "x86_64".toList).push "depend".toList "openssl>=3".toList

/-- One object that needs the library. -/
def needing (library : Text) : List ElfFacts := [inspect ⟨none, true, [library], []⟩]

def flea (library : Text) : Except PkgInfoError PackageManifest :=
  merge fleaInfo (needing library) "ab".toList 1024 "flea-1.2.0-1-x86_64.pkg.tar.zst".toList

theorem flea_survives :
    ∃ manifest, flea "libc.so.6".toList = .ok manifest ∧
      FirstReadable (builtProvides fleaInfo (needing "libc.so.6".toList) manifest.name manifest.version) ∧
        FirstReadable (builtRequires fleaInfo (needing "libc.so.6".toList)) := by
  have survive : (flea "libc.so.6".toList).toOption.any
      (fun manifest => manifest.rules.all fun rule => fromStr rule.display = .ok rule) = true := by decide
  cases merged : flea "libc.so.6".toList with
  | error e =>
      rw [merged] at survive
      cases survive
  | ok manifest =>
      rw [merged] at survive
      refine ⟨manifest, rfl, (rules_survive_iff merged).mp ⟨fun s rule => fromStr_display, ?_⟩⟩
      simpa [Except.toOption, Survives] using survive

/-- A `DT_NEEDED` of `liba=b.so` is stored as a text that says version `b.so` of `liba`. -/
theorem not_survives_liba :
    ∃ manifest, flea "liba=b.so".toList = .ok manifest ∧ ∃ rule ∈ manifest.requires, ¬ Survives rule := by
  have lost : (flea "liba=b.so".toList).toOption.any
      (fun manifest => manifest.requires.any fun rule => fromStr rule.display ≠ .ok rule) = true := by decide
  cases merged : flea "liba=b.so".toList with
  | error e =>
      rw [merged] at lost
      cases lost
  | ok manifest =>
      rw [merged] at lost
      refine ⟨manifest, rfl, ?_⟩
      simpa [Except.toOption, Survives] using lost

end OmarchyPool.Extract
