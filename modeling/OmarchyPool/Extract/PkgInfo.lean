/-
# OmarchyPool.Extract.PkgInfo -- the `.PKGINFO` of a package

Keys and values, one pair a line, as makepkg writes them and `pkg-extract` reads them.  A key may come
again; its values are kept in order.  Every value that is read is one line without whitespace at its ends
(`parse_wellFormed`), and that is all that is known of it.
-/
import OmarchyPool.Lib.Decimal
import OmarchyPool.Lib.SortedMap
import OmarchyPool.Manifest.Dependency
import Mathlib

namespace OmarchyPool.Extract

open Lib Manifest

set_option autoImplicit false

inductive PkgInfoError where
  /-- The line, from one. -/
  | malformed (line : Nat)
  | missingKey (key : Text)
deriving DecidableEq, Repr

structure PkgInfo where
  entries : SortedMap Text (List Text)

namespace PkgInfo

/-- `entry(key).or_default().push(value)`. -/
def push (info : PkgInfo) (key value : Text) : PkgInfo :=
  ⟨info.entries.insert key ((info.entries.get key).getD [] ++ [value])⟩

/-- One round of the loop of `parse`: the line `raw`, the one after `idx` others. -/
def readLine (info : PkgInfo) (raw : Text) (idx : Nat) : Except PkgInfoError PkgInfo :=
  let line := trim raw
  if line = [] ∨ line.head? = some '#' then .ok info
  else
    match cutAt ['='] line with
    | none => .error (.malformed (idx + 1))
    | some (key, value) => .ok (info.push (trim key) (trim value))

def parse (text : Text) : Except PkgInfoError PkgInfo :=
  (lines text).zipIdx.foldlM (fun info line => info.readLine line.1 line.2) ⟨SortedMap.empty⟩

def all (info : PkgInfo) (key : Text) : List Text := (info.entries.get key).getD []

def first (info : PkgInfo) (key : Text) : Option Text := (info.all key).head?

def required (info : PkgInfo) (key : Text) : Except PkgInfoError Text :=
  match info.first key with
  | some value => .ok value
  | none => .error (.missingKey key)

/-! ## What a value is -/

/-- One line, without whitespace at its ends. -/
def IsValue (value : Text) : Prop := '\n' ∉ value ∧ Stripped isWhitespace value

def WellFormed (info : PkgInfo) : Prop := ∀ key, ∀ value ∈ info.all key, IsValue value

theorem mem_trim {s : Text} {c : Char} (member : c ∈ trim s) : c ∈ s :=
  (List.dropWhile_suffix _).subset ((List.rdropWhile_prefix _ _).subset member)

theorem all_push (info : PkgInfo) (key other value : Text) :
    (info.push key value).all other = if key = other then info.all key ++ [value] else info.all other := by
  unfold all push
  simp only
  rw [SortedMap.get_insert]
  split
  · rfl
  · rfl

theorem WellFormed.readLine {info next : PkgInfo} {raw : Text} {idx : Nat} (formed : info.WellFormed)
    (oneLine : '\n' ∉ raw) (read : info.readLine raw idx = .ok next) : next.WellFormed := by
  unfold PkgInfo.readLine at read
  simp only at read
  split at read
  · rw [Except.ok.injEq] at read
    rwa [← read]
  · cases split : cutAt ['='] (trim raw) with
    | none =>
        rw [split] at read
        cases read
    | some parts =>
        obtain ⟨key, value⟩ := parts
        rw [split, Except.ok.injEq] at read
        subst read
        have whole := cutAt_eq_append split
        have isValue : IsValue (trim value) := by
          refine ⟨fun newline => oneLine ?_, stripped_strip⟩
          apply mem_trim
          rw [whole]
          simp [mem_trim newline]
        intro other stored member
        rw [all_push] at member
        split at member
        · rcases List.mem_append.mp member with before | here
          · exact formed _ stored before
          · rwa [List.mem_singleton.mp here]
        · exact formed other stored member

theorem WellFormed.foldlM {info last : PkgInfo} (formed : info.WellFormed) {rest : List (Text × Nat)}
    (oneLine : ∀ line ∈ rest, '\n' ∉ line.1)
    (read : rest.foldlM (fun info line => info.readLine line.1 line.2) info = .ok last) : last.WellFormed := by
  induction rest generalizing info with
  | nil =>
      simp only [List.foldlM_nil, pure, Except.pure, Except.ok.injEq] at read
      rwa [← read]
  | cons line rest ih =>
      rw [List.foldlM_cons] at read
      cases step : info.readLine line.1 line.2 with
      | error e =>
          rw [step] at read
          cases read
      | ok next =>
          rw [step] at read
          have nextFormed := formed.readLine (oneLine line List.mem_cons_self) step
          exact ih nextFormed (fun other member => oneLine other (List.mem_cons_of_mem _ member)) read

theorem parse_wellFormed {text : Text} {info : PkgInfo} (parsed : parse text = .ok info) : info.WellFormed := by
  have start : WellFormed ⟨SortedMap.empty⟩ := by
    intro key value member
    simp [all] at member
  apply start.foldlM _ parsed
  intro line member
  have inside : line.1 ∈ lines text := by
    have mapped := List.mem_map_of_mem (f := Prod.fst) member
    rwa [List.zipIdx_map_fst] at mapped
  exact newline_not_mem_lines inside

theorem mem_of_first {info : PkgInfo} {key value : Text} (found : info.first key = some value) :
    value ∈ info.all key := List.mem_of_head? found

theorem first_of_required {info : PkgInfo} {key value : Text} (found : info.required key = .ok value) :
    info.first key = some value := by
  unfold required at found
  cases value' : info.first key with
  | none =>
      rw [value'] at found
      cases found
  | some value'' =>
      rw [value', Except.ok.injEq] at found
      rw [found]

end PkgInfo

/-- `str::parse::<u64>`: a sign, and digits. -/
def u64FromStr (s : Text) : Option UInt64 :=
  let digits := if s.head? = some '+' then s.tail else s
  if digits = [] ∨ ¬ digits.all Char.isDigit then none
  else (readBelow (fun c => c.toNat - 48) 10 (2 ^ 64) digits).map UInt64.ofNat

end OmarchyPool.Extract
