/-
# OmarchyPool.Manifest.Vercmp -- which of two versions is newer

`pkg-manifest`'s port of libalpm's version comparison: `[epoch:]pkgver[-pkgrel]`, parsed into
slices and compared segment by segment.  A string is its bytes.  The loop of `rpmvercmp` is
`walk`; each round takes a segment off the first string, so it ends.
-/
import Mathlib.Data.List.TakeWhile
import OmarchyPool.Lib.Decimal

namespace OmarchyPool.Manifest

open Lib

set_option autoImplicit false

abbrev Bytes := List UInt8

/-- The bytes of an ASCII string. -/
def ascii (s : String) : Bytes := s.toList.map fun c => c.toNat.toUInt8

def colon : UInt8 := 58
def hyphen : UInt8 := 45
def zero : UInt8 := 48

def isDigit (c : UInt8) : Bool := 48 ≤ c && c ≤ 57
def isAlphabetic (c : UInt8) : Bool := 65 ≤ c && c ≤ 90 || 97 ≤ c && c ≤ 122
def isAlphanumeric (c : UInt8) : Bool := isDigit c || isAlphabetic c

def digitOf (c : UInt8) : Nat := c.toNat - 48

/-- `str::split_once`: at the first separator. -/
def splitOnce (separator : UInt8) : Bytes → Option (Bytes × Bytes)
  | [] => none
  | c :: rest =>
      if c = separator then some ([], rest)
      else (splitOnce separator rest).map fun split => (c :: split.1, split.2)

/-- `str::rsplit_once`: at the last separator. -/
def rsplitOnce (separator : UInt8) : Bytes → Option (Bytes × Bytes)
  | [] => none
  | c :: rest =>
      match rsplitOnce separator rest with
      | some split => some (c :: split.1, split.2)
      | none => if c = separator then some ([], rest) else none

structure Version where
  /-- A `u64`. -/
  epoch : Nat
  pkgver : Bytes
  pkgrel : Option Bytes
deriving DecidableEq, Repr

/-- `str::parse::<u64>`, of digits. -/
def parseU64 (digits : Bytes) : Option Nat := readBelow digitOf 10 (2 ^ 64) digits

/-- `pkgver` and `pkgrel`. -/
def splitRelease (rest : Bytes) : Bytes × Option Bytes :=
  match rsplitOnce hyphen rest with
  | some split => (split.1, some split.2)
  | none => (rest, none)

/-- The epoch, and what follows it. -/
def splitEpoch (s : Bytes) : Nat × Bytes :=
  match splitOnce colon s with
  | some (e, rest) => if e.all isDigit && !e.isEmpty then ((parseU64 e).getD 0, rest) else (0, s)
  | none => (0, s)

def Version.parse (s : Bytes) : Version where
  epoch := (splitEpoch s).1
  pkgver := (splitRelease (splitEpoch s).2).1
  pkgrel := (splitRelease (splitEpoch s).2).2

def stripLeadingZeros (s : Bytes) : Bytes := s.drop (s.takeWhile (· == zero)).length

/-- What is left when one of the strings has run out. -/
def remainder (one two : Bytes) : Ordering :=
  if one.isEmpty && two.isEmpty then .eq
  else match one with
    | [] => if two.head?.any isAlphabetic then .gt else .lt
    | c :: _ => if isAlphabetic c then .lt else .gt

/-- Two segments of one kind. -/
def segmentCmp (isnum : Bool) (sa sb : Bytes) : Ordering :=
  if isnum then
    (compare (stripLeadingZeros sa).length (stripLeadingZeros sb).length).then
      (compare (stripLeadingZeros sa) (stripLeadingZeros sb))
  else compare sa sb

theorem drop_takeWhile_length {α : Type} (p : α → Bool) (l : List α) :
    l.drop (l.takeWhile p).length = l.dropWhile p := by
  induction l with
  | nil => rfl
  | cons a rest ih =>
      by_cases holds : p a <;> simp [holds, ih]

theorem dropWhile_head {α : Type} {p : α → Bool} {l : List α} {a : α} (first : (l.dropWhile p).head? = some a) :
    p a = false := by
  induction l with
  | nil => cases first
  | cons b rest ih =>
      rw [List.dropWhile_cons] at first
      split at first
      · exact ih first
      · rename_i stops
        cases first
        simpa using stops

/-- The bytes of a segment: all digits or all letters. -/
def ofKind (isnum : Bool) (c : UInt8) : Bool := if isnum then isDigit c else isAlphabetic c

/-- What a round of the loop comes to. -/
inductive Round where
  | ends (verdict : Ordering)
  | goesOn (one two : Bytes)
deriving DecidableEq, Repr

def round (one two : Bytes) : Round :=
  if one.isEmpty || two.isEmpty then .ends (remainder one two)
  else
    let sepA := (one.takeWhile (!isAlphanumeric ·)).length
    let sepB := (two.takeWhile (!isAlphanumeric ·)).length
    let one := one.drop sepA
    let two := two.drop sepB
    if one.isEmpty || two.isEmpty then .ends (remainder one two)
    else if sepA ≠ sepB then .ends (if sepA < sepB then .lt else .gt)
    else
      let isnum := one.head?.any isDigit
      let segA := (one.takeWhile (ofKind isnum)).length
      let segB := (two.takeWhile (ofKind isnum)).length
      if segB = 0 then .ends (if isnum then .gt else .lt)
      else
        let ord := segmentCmp isnum (one.take segA) (two.take segB)
        if ord ≠ .eq then .ends ord else .goesOn (one.drop segA) (two.drop segB)

/-- What is left after the separators starts a segment of its own kind. -/
theorem ofKind_head {one : Bytes} {a : UInt8} (first : (one.dropWhile (!isAlphanumeric ·)).head? = some a) :
    ofKind (isDigit a) a = true := by
  have alphanumeric := dropWhile_head first
  simp only [Bool.not_eq_false'] at alphanumeric
  unfold ofKind
  cases digit : isDigit a with
  | true => rfl
  | false => simpa [isAlphanumeric, digit] using alphanumeric

theorem round_shorter {one two one' two' : Bytes} (goesOn : round one two = .goesOn one' two') :
    one'.length < one.length := by
  unfold round at goesOn
  split at goesOn
  · cases goesOn
  extract_lets sepA sepB rest rest' isnum segA segB ord at goesOn
  split at goesOn
  · cases goesOn
  rename_i notEmpty
  split at goesOn
  · cases goesOn
  split at goesOn
  · cases goesOn
  split at goesOn
  · cases goesOn
  cases goesOn
  have isRest : rest = one.dropWhile (!isAlphanumeric ·) := drop_takeWhile_length _ one
  have shorter : rest.length ≤ one.length := isRest ▸ (List.dropWhile_sublist _).length_le
  cases whole : rest with
  | nil => simp [whole] at notEmpty
  | cons a others =>
      have starts : ofKind isnum a = true := by
        have first : (one.dropWhile (!isAlphanumeric ·)).head? = some a := by rw [← isRest, whole]; rfl
        have isnumA : isnum = isDigit a := by simp [isnum, whole]
        rw [isnumA]
        exact ofKind_head first
      simp only [segA, whole, List.takeWhile_cons, starts, if_true, List.length_cons, List.drop_succ_cons,
        List.length_drop] at shorter ⊢
      omega

/-- The loop of `rpmvercmp`. -/
def walk (one two : Bytes) : Ordering :=
  match _next : round one two with
  | .ends verdict => verdict
  | .goesOn one' two' => walk one' two'
termination_by one.length
decreasing_by exact round_shorter _next

theorem walk_ends {one two : Bytes} {verdict : Ordering} (ends : round one two = .ends verdict) :
    walk one two = verdict := by
  rw [walk, ends]

theorem walk_goesOn {one two one' two' : Bytes} (goesOn : round one two = .goesOn one' two') :
    walk one two = walk one' two' := by
  rw [walk, goesOn]

def rpmvercmp (a b : Bytes) : Ordering := if a = b then .eq else walk a b

def vercmp (a b : Bytes) : Ordering :=
  let va := Version.parse a
  let vb := Version.parse b
  ((compare va.epoch vb.epoch).then (rpmvercmp va.pkgver vb.pkgver)).then
    (match va.pkgrel, vb.pkgrel with
    | some ra, some rb => rpmvercmp ra rb
    | _, _ => .eq)

example : vercmp (ascii "1.5b") (ascii "1.5.1") = .lt := by decide +kernel
example : vercmp (ascii "1:1.0") (ascii "0:1.1-2") = .gt := by decide +kernel

end OmarchyPool.Manifest
