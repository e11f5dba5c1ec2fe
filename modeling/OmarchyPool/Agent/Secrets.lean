/-
# OmarchyPool.Agent.Secrets -- the agent keys' file, read

`agent.env` as the agent reads it: `KEY=value` lines, comments and blank lines left out, and a value without
one pair of quotes around it.  A text that reads gives what its lines give, in order, each name once
(`parse_eq_ok_iff`).  A line `KEY=value` as the agent writes it gives its key and its value, unless the value
stands in quotes (`entry_written`, `unquote_eq_self_iff`).
-/
import Mathlib.Data.List.Basic
import OmarchyPool.Manifest.Dependency

namespace OmarchyPool.Agent.Secrets

open OmarchyPool.Lib OmarchyPool.Manifest

set_option autoImplicit false

/-! ## `parse` -/

/-- Why a text does not read: the line, and the name on it. -/
inductive ReadError where
  | notAssignment (line : Nat)
  | notKey (line : Nat) (key : Text)
  | givenTwice (line : Nat) (key : Text)
deriving DecidableEq, Repr

/-- `export `. -/
def exported : Text := ['e', 'x', 'p', 'o', 'r', 't', ' ']

/-- The name in what stands in front of the `=`. -/
def keyName (k : Text) : Text := trim (((trim k).dropPrefix? exported).getD (trim k))

/-- A shell variable's name. -/
def nameOk (k : Text) : Bool :=
  k.head?.any (fun b => b.isUpper || b == '_') && k.all fun b => b.isUpper || b.isDigit || b == '_'

/-- Without the quotes at both ends. -/
def unquoteBy (quote : Char) (v : Text) : Option Text := (v.dropPrefix? [quote]).bind (·.dropSuffix? [quote])

def unquote (v : Text) : Text := ((unquoteBy '\x22' v).or (unquoteBy '\x27' v)).getD v

/-- The loop's body, up to what was read before: nothing, or a name and a value. -/
def readLine (n : Nat) (line : Text) : Except ReadError (Option (Text × Text)) :=
  let l := trim line
  if l = [] ∨ l.head? = some '#' then .ok none
  else
    match cutAt ['='] l with
    | none => .error (.notAssignment n)
    | some (k, v) =>
        if nameOk (keyName k) then .ok (some (keyName k, unquote (trim v))) else .error (.notKey n (keyName k))

def parseLines : Nat → List Text → List (Text × Text) → Except ReadError (List (Text × Text))
  | _, [], out => .ok out
  | n, line :: rest, out =>
      match readLine n line with
      | .error e => .error e
      | .ok none => parseLines (n + 1) rest out
      | .ok (some (k, v)) =>
          if out.any (·.1 = k) then .error (.givenTwice n k) else parseLines (n + 1) rest (out ++ [(k, v)])

def parse (text : Text) : Except ReadError (List (Text × Text)) := parseLines 1 (lines text) []

/-! ## What a line gives -/

/-- A line that reads. -/
def Reads (line : Text) : Prop := (readLine 0 line).toOption.isSome

/-- The name and the value on a line. -/
def entry (line : Text) : Option (Text × Text) := (readLine 0 line).toOption.join

theorem readLine_toOption (n : Nat) (line : Text) : (readLine n line).toOption = (readLine 0 line).toOption := by
  unfold readLine
  simp only
  split
  · rfl
  · split
    · rfl
    · split <;> rfl

theorem readLine_eq_ok {n : Nat} {line : Text} {given : Option (Text × Text)} :
    readLine n line = .ok given ↔ Reads line ∧ entry line = given := by
  have same := readLine_toOption n line
  unfold Reads entry
  rw [← same]
  cases readLine n line with
  | error e => simp [Except.toOption]
  | ok found => simp [Except.toOption]

theorem readLine_trim {line line' : Text} (same : trim line = trim line') (n : Nat) : readLine n line = readLine n line' := by
  unfold readLine
  rw [same]

/-- What a line gives does not depend on the carriage return at its end. -/
theorem trim_dropReturn (line : Text) : trim (dropReturn line) = trim line := by
  by_cases last : line.getLast? = some '\r'
  · obtain ⟨front, rfl⟩ := List.getLast?_eq_some_iff.mp last
    rw [dropReturn_concat]
    exact (strip_concat rfl).symm
  · rw [dropReturn_of_ne last]

theorem reads_dropReturn {line : Text} : Reads (dropReturn line) ↔ Reads line := by
  unfold Reads
  rw [readLine_trim (trim_dropReturn line)]

theorem entry_dropReturn (line : Text) : entry (dropReturn line) = entry line := by
  unfold entry
  rw [readLine_trim (trim_dropReturn line)]

theorem parseLines_eq_ok {n : Nat} {ls : List Text} {out entries : List (Text × Text)}
    (distinct : (out.map Prod.fst).Nodup) :
    parseLines n ls out = .ok entries ↔
      (∀ line ∈ ls, Reads line) ∧ entries = out ++ ls.filterMap entry ∧ (entries.map Prod.fst).Nodup := by
  induction ls generalizing n out with
  | nil =>
      simp only [parseLines, Except.ok.injEq, List.not_mem_nil, false_implies, implies_true, List.filterMap_nil,
        List.append_nil, true_and]
      constructor
      · rintro rfl
        exact ⟨rfl, distinct⟩
      · rintro ⟨rfl, -⟩
        rfl
  | cons line rest ih =>
      rw [parseLines, List.forall_mem_cons]
      cases read : readLine n line with
      | error e =>
          have unread : ¬ Reads line := by
            intro reads
            have ok : readLine n line = .ok (entry line) := readLine_eq_ok.mpr ⟨reads, rfl⟩
            rw [read] at ok
            cases ok
          simp [unread]
      | ok given =>
          obtain ⟨reads, gives⟩ := readLine_eq_ok.mp read
          cases given with
          | none => simp only [ih distinct, reads, true_and, List.filterMap_cons_none gives]
          | some pair =>
              obtain ⟨k, v⟩ := pair
              simp only [List.filterMap_cons_some gives, reads, true_and]
              by_cases twice : out.any (·.1 = k) = true
              · rw [if_pos twice]
                constructor
                · intro failed
                  cases failed
                · rintro ⟨-, rfl, once⟩
                  simp only [List.any_eq_true, decide_eq_true_eq] at twice
                  obtain ⟨old, member, rfl⟩ := twice
                  rw [List.map_append, List.map_cons, List.nodup_append] at once
                  exact absurd rfl (once.2.2 _ (List.mem_map_of_mem member) _ List.mem_cons_self)
              · rw [if_neg twice]
                have fresh : k ∉ out.map Prod.fst := by
                  intro member
                  obtain ⟨old, member, eq⟩ := List.mem_map.mp member
                  exact twice (List.any_eq_true.mpr ⟨old, member, by simpa using eq⟩)
                rw [ih (by simpa [List.nodup_append, distinct] using fun a b member eq => fresh (List.mem_map.mpr ⟨(a, b), member, eq⟩))]
                simp

/-- A text reads exactly when its lines do and none gives the name of another. -/
theorem parse_eq_ok_iff {text : Text} {entries : List (Text × Text)} :
    parse text = .ok entries ↔
      (∀ line ∈ lines text, Reads line) ∧ entries = (lines text).filterMap entry ∧ (entries.map Prod.fst).Nodup := by
  unfold parse
  rw [parseLines_eq_ok (by simp), List.nil_append]

/-! ## A line as it is written -/

/-- `KEY=value`. -/
def written (k v : Text) : Text := k ++ '=' :: v

/-- A value a seal key opens to: a character from `!` to `~`, and others like it. -/
structure Sealable (v : Text) : Prop where
  nonempty : v ≠ []
  graphic : ∀ c ∈ v, 0x21 ≤ c.toNat ∧ c.toNat ≤ 0x7e

theorem sealable_of_all {v : Text} (nonempty : v ≠ []) (all : v.all (fun c => 0x21 ≤ c.toNat && c.toNat ≤ 0x7e) = true) :
    Sealable v := by
  refine ⟨nonempty, fun c inside => ?_⟩
  have its := List.all_eq_true.mp all c inside
  rw [Bool.and_eq_true] at its
  exact ⟨of_decide_eq_true its.1, of_decide_eq_true its.2⟩

/-- In quotes of one kind. -/
def Quoted (v : Text) : Prop :=
  (∃ inner, v = '\x22' :: inner ++ ['\x22']) ∨ ∃ inner, v = '\x27' :: inner ++ ['\x27']

theorem isWhitespace_graphic {c : Char} (least : 0x21 ≤ c.toNat) (most : c.toNat ≤ 0x7e) : isWhitespace c = false := by
  unfold isWhitespace
  simp only [List.contains_eq_mem, Bool.or_eq_false_iff, Bool.and_eq_false_iff, decide_eq_false_iff_not]
  refine ⟨⟨?_, ?_⟩, ?_⟩
  · right
    omega
  · left
    omega
  · simp only [List.mem_cons, List.not_mem_nil, or_false]
    omega

/-- Visible text has nothing to take off. -/
theorem trim_graphic {s : Text} (graphic : ∀ c ∈ s, 0x21 ≤ c.toNat ∧ c.toNat ≤ 0x7e) : trim s = s := by
  apply strip_eq_self
  constructor
  · intro c first
    obtain ⟨least, most⟩ := graphic c (List.mem_of_mem_head? first)
    exact isWhitespace_graphic least most
  · intro c last
    obtain ⟨least, most⟩ := graphic c (List.mem_of_getLast? last)
    exact isWhitespace_graphic least most

theorem nameOk_graphic {k : Text} (ok : nameOk k = true) :
    ∀ c ∈ k, 0x21 ≤ c.toNat ∧ c.toNat ≤ 0x7e ∧ c ≠ '=' ∧ c ≠ '#' ∧ c ≠ 'e' := by
  intro c member
  simp only [nameOk, Bool.and_eq_true, List.all_eq_true, Bool.or_eq_true] at ok
  have kind := ok.2 c member
  have range : (65 ≤ c.toNat ∧ c.toNat ≤ 90) ∨ (48 ≤ c.toNat ∧ c.toNat ≤ 57) ∨ c.toNat = 95 := by
    rcases kind with (upper | digit) | low
    · left
      have its : 'A'.val ≤ c.val ∧ c.val ≤ 'Z'.val := of_decide_eq_true upper
      simpa [UInt32.le_iff_toNat_le] using its
    · right
      left
      exact Char.isDigit_iff_toNat.mp digit
    · right
      right
      rw [beq_iff_eq.mp low]
      rfl
  refine ⟨by omega, by omega, ?_, ?_, ?_⟩
  · rintro rfl
    revert range
    decide
  · rintro rfl
    revert range
    decide
  · rintro rfl
    revert range
    decide

theorem keyName_of_nameOk {k : Text} (ok : nameOk k = true) : keyName k = k := by
  have plain := nameOk_graphic ok
  have same : trim k = k := trim_graphic fun c member => ⟨(plain c member).1, (plain c member).2.1⟩
  have notExported : k.dropPrefix? exported = none := by
    rw [← Option.not_isSome_iff_eq_none, Option.isSome_iff_exists]
    rintro ⟨rest, found⟩
    obtain ⟨front, whole, eq⟩ := List.dropPrefix?_eq_some_iff.mp found
    rw [eq_of_beq eq] at whole
    exact (plain 'e' (by rw [whole]; exact List.mem_append_left _ (by decide))).2.2.2.2 rfl
  rw [keyName, same, notExported]
  exact same

theorem unquoteBy_eq_some {quote : Char} {v inner : Text} :
    unquoteBy quote v = some inner ↔ v = quote :: inner ++ [quote] := by
  unfold unquoteBy
  simp only [Option.bind_eq_some_iff, List.dropPrefix?_eq_some_iff, List.dropSuffix?_eq_some_iff]
  constructor
  · rintro ⟨rest, ⟨front, rfl, front_eq⟩, back, rfl, back_eq⟩
    rw [eq_of_beq front_eq, eq_of_beq back_eq]
    rfl
  · rintro rfl
    exact ⟨inner ++ [quote], ⟨[quote], rfl, beq_self_eq_true _⟩, [quote], rfl, beq_self_eq_true _⟩

/-- A value is read as it is written exactly when it is not in quotes. -/
theorem unquote_eq_self_iff {v : Text} : unquote v = v ↔ ¬ Quoted v := by
  unfold unquote Quoted
  have shorter (quote : Char) (inner : Text) : inner ≠ quote :: inner ++ [quote] := by
    intro same
    have lengths := congrArg List.length same
    simp only [List.cons_append, List.length_cons, List.length_append] at lengths
    omega
  simp only [← unquoteBy_eq_some, ← Option.isSome_iff_exists, not_or, Option.not_isSome_iff_eq_none]
  cases double : unquoteBy '\x22' v with
  | some inner =>
      rw [unquoteBy_eq_some] at double
      subst double
      simpa using shorter '\x22' inner
  | none =>
      cases single : unquoteBy '\x27' v with
      | some inner =>
          rw [unquoteBy_eq_some] at single
          subst single
          simpa using shorter '\x27' inner
      | none => simp

section Written

variable {k v : Text}

theorem trim_written (ok : nameOk k = true) (its : Sealable v) : trim (written k v) = written k v := by
  apply trim_graphic
  intro c member
  rcases List.mem_append.mp member with inName | inRest
  · exact ⟨(nameOk_graphic ok c inName).1, (nameOk_graphic ok c inName).2.1⟩
  · rcases List.mem_cons.mp inRest with rfl | inValue
    · decide
    · exact its.graphic c inValue

theorem head_written (ok : nameOk k = true) : ∃ c, (written k v).head? = some c ∧ c ≠ '#' := by
  cases k with
  | nil => cases ok
  | cons c rest => exact ⟨c, rfl, (nameOk_graphic ok c List.mem_cons_self).2.2.2.1⟩

theorem cutAt_written (ok : nameOk k = true) : cutAt ['='] (written k v) = some (k, v) := by
  rw [cutAt_singleton_iff]
  exact ⟨rfl, fun member => (nameOk_graphic ok _ member).2.2.1 rfl⟩

theorem readLine_written (ok : nameOk k = true) (its : Sealable v) (n : Nat) :
    readLine n (written k v) = .ok (some (k, unquote v)) := by
  obtain ⟨c, first, notComment⟩ := @head_written k v ok
  have some : ¬ (written k v = [] ∨ (written k v).head? = some '#') := by
    rintro (nil | comment)
    · rw [nil] at first
      cases first
    · rw [first] at comment
      exact notComment (Option.some.inj comment)
  simp only [readLine, trim_written ok its, if_neg some, cutAt_written ok, keyName_of_nameOk ok, ok, if_true,
    trim_graphic its.graphic]

theorem entry_written (ok : nameOk k = true) (its : Sealable v) : entry (written k v) = some (k, unquote v) :=
  (readLine_eq_ok.mp (readLine_written ok its 0)).2

theorem reads_written (ok : nameOk k = true) (its : Sealable v) : Reads (written k v) :=
  (readLine_eq_ok.mp (readLine_written ok its 0)).1

theorem newline_not_mem_written (ok : nameOk k = true) (its : Sealable v) : '\n' ∉ written k v := by
  intro member
  rcases List.mem_append.mp member with inName | inRest
  · exact absurd (nameOk_graphic ok _ inName).1 (by decide)
  · rcases List.mem_cons.mp inRest with eq | inValue
    · exact absurd eq (by decide)
    · exact absurd (its.graphic _ inValue).1 (by decide)

/-- What is written ends in no carriage return. -/
theorem dropReturn_written (its : Sealable v) : dropReturn (written k v) = written k v := by
  apply dropReturn_of_ne
  intro last
  have lastOfValue : v.getLast? = some '\r' := by
    obtain ⟨c, rest, rfl⟩ := List.exists_cons_of_ne_nil its.nonempty
    simpa [written] using last
  exact absurd (its.graphic _ (List.mem_of_getLast? lastOfValue)).1 (by decide)

end Written

end OmarchyPool.Agent.Secrets
