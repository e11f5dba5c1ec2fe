/-
# OmarchyPool.Manifest.Dependency -- dependency rules and their text

A rule in Arch syntax, `name`, `name>=1.2`, `libc.so.6(GLIBC_2.38)`, as `pkg-manifest` parses and prints
it.  What prints a rule puts the fields one after another.  What parses one first takes the symbol version
off, from the first `(` to the last `)`, and then looks for the operators, longest first, wherever they
stand.

A parsed rule is what its text is parsed to again (`parse_display`): what was cut off behind the symbol
version is gone, and everything else stands where it stood.  A rule built from its fields comes back
exactly when no field is read as another (`parse_display_iff`).
-/
import OmarchyPool.Lib.Text

namespace OmarchyPool.Manifest

open Lib

set_option autoImplicit false

/-- A `String`. -/
abbrev Text := List Char

/-- `char::is_whitespace`. -/
def isWhitespace (c : Char) : Bool :=
  (9 ≤ c.toNat && c.toNat ≤ 13) || (0x2000 ≤ c.toNat && c.toNat ≤ 0x200a) ||
    [0x20, 0x85, 0xa0, 0x1680, 0x2028, 0x2029, 0x202f, 0x205f, 0x3000].contains c.toNat

/-- `str::trim`. -/
abbrev trim (s : Text) : Text := strip isWhitespace s

inductive VersionOp where
  | eq | ge | le | gt | lt
deriving DecidableEq, Repr

def VersionOp.asStr : VersionOp → Text
  | .eq => ['=']
  | .ge => ['>', '=']
  | .le => ['<', '=']
  | .gt => ['>']
  | .lt => ['<']

structure VersionConstraint where
  op : VersionOp
  version : Text
deriving DecidableEq, Repr

structure DependencyRule where
  name : Text
  constraint : Option VersionConstraint
  symbolVersion : Option Text
deriving DecidableEq, Repr

inductive ParseError where
  | empty
  | missingVersion (rule : Text)
  | unterminatedSymbolVersion (rule : Text)
deriving DecidableEq, Repr

namespace DependencyRule

def unversioned (name : Text) : DependencyRule := ⟨name, none, none⟩

def withConstraint (name : Text) (op : VersionOp) (version : Text) : DependencyRule :=
  ⟨name, some ⟨op, version⟩, none⟩

/-! ## `FromStr` -/

/-- `OPS`: longest operators first, so `>=` is not read as `>` and `=1.0`. -/
def ops : List (Text × VersionOp) :=
  [(['>', '='], .ge), (['<', '='], .le), (['='], .eq), (['>'], .gt), (['<'], .lt)]

/-- Off the `(SYMBOL_VERSION)` suffix.  What stands behind the last `)` is dropped; none is an error. -/
def splitSymbol (s : Text) : Option (Text × Option Text) :=
  match cutAt ['('] s with
  | none => some (s, none)
  | some (front, rest) => (cutAtLast [')'] rest).map fun split => (front, some split.1)

/-- The loop over `OPS`; an operator with nothing on a side is an error. -/
def splitOperator : List (Text × VersionOp) → Text → Option (Text × Option VersionConstraint)
  | [], s => some (s, none)
  | (token, op) :: rest, s =>
      match cutAt token s with
      | some (name, version) => if version = [] ∨ name = [] then none else some (name, some ⟨op, version⟩)
      | none => splitOperator rest s

/-- `DependencyRule::from_str`. -/
def fromStr (input : Text) : Except ParseError DependencyRule :=
  let s := trim input
  if s = [] then .error .empty
  else
    match splitSymbol s with
    | none => .error (.unterminatedSymbolVersion input)
    | some (s, symbolVersion) =>
        match splitOperator ops s with
        | none => .error (.missingVersion input)
        | some (name, constraint) => .ok ⟨name, constraint, symbolVersion⟩

/-! ## `Display` -/

/-- What the name and the constraint print. -/
def front (name : Text) (constraint : Option VersionConstraint) : Text :=
  name ++ constraint.elim [] fun c => c.op.asStr ++ c.version

def display (rule : DependencyRule) : Text :=
  front rule.name rule.constraint ++ rule.symbolVersion.elim [] fun sv => '(' :: (sv ++ [')'])

/-! ## What a part is read back as -/

theorem splitSymbol_eq_some_iff {s front : Text} {symbolVersion : Option Text} :
    splitSymbol s = some (front, symbolVersion) ↔
      '(' ∉ front ∧ ((symbolVersion = none ∧ s = front) ∨
        ∃ sv dropped, symbolVersion = some sv ∧ s = front ++ '(' :: (sv ++ ')' :: dropped) ∧ ')' ∉ dropped) := by
  unfold splitSymbol
  cases split : cutAt ['('] s with
  | none =>
      have plain := cutAt_singleton_eq_none.mp split
      simp only [Option.some.injEq, Prod.mk.injEq]
      constructor
      · rintro ⟨rfl, rfl⟩
        exact ⟨plain, .inl ⟨rfl, rfl⟩⟩
      · rintro ⟨-, ⟨rfl, rfl⟩ | ⟨sv, dropped, -, rfl, -⟩⟩
        · exact ⟨rfl, rfl⟩
        · exact absurd (by simp) plain
  | some opened =>
      obtain ⟨whole, plain⟩ := cutAt_singleton_iff.mp (show cutAt ['('] s = some (opened.1, opened.2) from split)
      simp only [Option.map_eq_some_iff, Prod.mk.injEq]
      constructor
      · rintro ⟨closed, found, rfl, rfl⟩
        obtain ⟨rest, last⟩ := cutAtLast_spec found
        exact ⟨plain, .inr ⟨closed.1, closed.2, rfl, by rw [whole, rest], last⟩⟩
      · rintro ⟨plain', ⟨rfl, rfl⟩ | ⟨sv, dropped, rfl, whole', last⟩⟩
        · exact absurd (by simp [whole]) plain'
        · obtain ⟨fronts, rests⟩ := split_first plain plain' (whole.symm.trans whole')
          exact ⟨(sv, dropped), cutAtLast_iff.mpr ⟨rests, last⟩, fronts, rfl⟩

/-- What the loop over the operators reads, it reads as it stands. -/
theorem front_of_splitOperator {tokens : List (Text × VersionOp)} (printed : ∀ entry ∈ tokens, entry.1 = entry.2.asStr)
    {s name : Text} {constraint : Option VersionConstraint}
    (read : splitOperator tokens s = some (name, constraint)) : front name constraint = s := by
  induction tokens with
  | nil =>
      simp only [splitOperator, Option.some.injEq, Prod.mk.injEq] at read
      obtain ⟨rfl, rfl⟩ := read
      simp [front]
  | cons entry rest ih =>
      obtain ⟨token, op⟩ := entry
      have prints : token = op.asStr := printed (token, op) List.mem_cons_self
      unfold splitOperator at read
      cases found : cutAt token s with
      | none =>
          rw [found] at read
          exact ih (fun other member => printed other (List.mem_cons_of_mem _ member)) read
      | some split =>
          have whole := cutAt_eq_append (show cutAt token s = some (split.1, split.2) from found)
          rw [found] at read
          simp only at read
          split at read
          · cases read
          · simp only [Option.some.injEq, Prod.mk.injEq] at read
            obtain ⟨rfl, rfl⟩ := read
            rw [whole, prints]
            rfl

theorem ops_printed : ∀ entry ∈ ops, entry.1 = entry.2.asStr := by decide

theorem fromStr_ok_iff {input : Text} {rule : DependencyRule} :
    fromStr input = .ok rule ↔
      trim input ≠ [] ∧ splitSymbol (trim input) = some (front rule.name rule.constraint, rule.symbolVersion) ∧
        splitOperator ops (front rule.name rule.constraint) = some (rule.name, rule.constraint) := by
  unfold fromStr
  simp only
  split
  · rename_i nothing
    simp [nothing]
  · rename_i something
    cases symbol : splitSymbol (trim input) with
    | none => simp
    | some split =>
        obtain ⟨s, symbolVersion⟩ := split
        simp only [Option.some.injEq, Prod.mk.injEq]
        cases read : splitOperator ops s with
        | none =>
            simp only [reduceCtorEq, false_iff, not_and]
            rintro - ⟨rfl, -⟩
            simp [read]
        | some parts =>
            obtain ⟨name, constraint⟩ := parts
            have stands := front_of_splitOperator ops_printed read
            simp only [Except.ok.injEq]
            constructor
            · rintro rfl
              exact ⟨something, ⟨stands.symm, rfl⟩, by rw [stands, read]⟩
            · rintro ⟨-, ⟨rfl, rfl⟩, same⟩
              rw [read, Option.some.injEq, Prod.mk.injEq] at same
              rw [same.1, same.2]

/-! ## A parsed rule -/

theorem display_eq (rule : DependencyRule) :
    (rule.symbolVersion = none ∧ rule.display = front rule.name rule.constraint) ∨
      ∃ sv, rule.symbolVersion = some sv ∧
        rule.display = front rule.name rule.constraint ++ '(' :: (sv ++ [')']) := by
  unfold display
  cases rule.symbolVersion with
  | none => exact .inl ⟨rfl, by simp⟩
  | some sv => exact .inr ⟨sv, rfl, rfl⟩

/-- What a rule that is parsed from a text prints is what stands in the text, up to the last `)`. -/
theorem display_of_splitSymbol {rule : DependencyRule} {s : Text}
    (symbol : splitSymbol s = some (front rule.name rule.constraint, rule.symbolVersion)) :
    ∃ dropped, s = rule.display ++ dropped ∧ (rule.symbolVersion = none → dropped = []) := by
  obtain ⟨-, ⟨none, whole⟩ | ⟨sv, dropped, some, whole, -⟩⟩ := splitSymbol_eq_some_iff.mp symbol
  · rcases display_eq rule with ⟨-, prints⟩ | ⟨sv, some, -⟩
    · exact ⟨[], by rw [prints, whole, List.append_nil], fun _ => rfl⟩
    · rw [none] at some
      cases some
  · rcases display_eq rule with ⟨none, -⟩ | ⟨sv', some', prints⟩
    · rw [none] at some
      cases some
    · rw [some, Option.some.injEq] at some'
      subst some'
      refine ⟨dropped, by rw [prints, whole]; simp, ?_⟩
      intro none
      rw [none] at some
      cases some

theorem splitSymbol_display {rule : DependencyRule} (plain : '(' ∉ front rule.name rule.constraint) :
    splitSymbol rule.display = some (front rule.name rule.constraint, rule.symbolVersion) := by
  rw [splitSymbol_eq_some_iff]
  refine ⟨plain, ?_⟩
  rcases display_eq rule with ⟨none, prints⟩ | ⟨sv, some, prints⟩
  · exact .inl ⟨none, prints⟩
  · exact .inr ⟨sv, [], some, prints, List.not_mem_nil⟩

theorem getLast_closed (front sv : Text) : (front ++ '(' :: (sv ++ [')'])).getLast? = some ')' := by
  rw [List.append_cons, ← List.append_assoc, List.getLast?_concat]

/-- Of a text without whitespace at its ends, what is printed before what was dropped has none either. -/
theorem stripped_display {rule : DependencyRule} {dropped : Text}
    (stripped : Stripped isWhitespace (rule.display ++ dropped)) (whole : rule.symbolVersion = none → dropped = []) :
    Stripped isWhitespace rule.display := by
  constructor
  · intro c first
    apply stripped.1 c
    rw [List.head?_append, first]
    rfl
  · intro c last
    rcases display_eq rule with ⟨none, -⟩ | ⟨sv, -, prints⟩
    · apply stripped.2 c
      rw [whole none, List.append_nil, last]
    · have closing : c = ')' := by
        rw [prints, getLast_closed, Option.some.injEq] at last
        exact last.symm
      rw [closing]
      decide

theorem fromStr_display_iff {rule : DependencyRule} :
    fromStr rule.display = .ok rule ↔
      rule.display ≠ [] ∧ Stripped isWhitespace rule.display ∧ '(' ∉ front rule.name rule.constraint ∧
        splitOperator ops (front rule.name rule.constraint) = some (rule.name, rule.constraint) := by
  rw [fromStr_ok_iff]
  constructor
  · rintro ⟨something, symbol, read⟩
    obtain ⟨dropped, whole, -⟩ := display_of_splitSymbol symbol
    have le : (trim rule.display).length ≤ rule.display.length :=
      (List.rdropWhile_prefix _ _).length_le.trans (List.dropWhile_suffix _).length_le
    have none : dropped = [] := by
      rw [whole, List.length_append] at le
      exact List.eq_nil_of_length_eq_zero (by omega)
    rw [none, List.append_nil] at whole
    exact ⟨by rwa [whole] at something, strip_eq_self_iff.mp whole, (splitSymbol_eq_some_iff.mp symbol).1, read⟩
  · rintro ⟨something, stripped, plain, read⟩
    rw [trim, strip_eq_self stripped]
    exact ⟨something, splitSymbol_display plain, read⟩

/-- A rule that a text parses as is the one that its own text parses as. -/
theorem fromStr_display {s : Text} {rule : DependencyRule} (parsed : fromStr s = .ok rule) :
    fromStr rule.display = .ok rule := by
  obtain ⟨something, symbol, read⟩ := fromStr_ok_iff.mp parsed
  obtain ⟨dropped, whole, none⟩ := display_of_splitSymbol symbol
  have nonempty : rule.display ≠ [] := by
    intro nothing
    rcases display_eq rule with ⟨no, -⟩ | ⟨sv, -, prints⟩
    · rw [nothing, none no] at whole
      exact something whole
    · rw [nothing] at prints
      simp at prints
  have stripped : Stripped isWhitespace (rule.display ++ dropped) := by
    rw [← whole]
    exact stripped_strip
  exact fromStr_display_iff.mpr
    ⟨nonempty, stripped_display stripped none, (splitSymbol_eq_some_iff.mp symbol).1, read⟩

/-! ## A rule built from its fields -/

/-- The operator of the constraint is the one the parser finds, and where it stands.  It looks for all of
them in the whole of the name and the version, longest first. -/
def Splits (name : Text) : Option VersionConstraint → Prop
  | none => '=' ∉ name ∧ '>' ∉ name ∧ '<' ∉ name
  | some ⟨op, version⟩ =>
      name ≠ [] ∧ version ≠ [] ∧
        match op with
        | .ge => ¬ ['>', '='] <:+: name
        | .le => ¬ ['>', '='] <:+: name ∧ ¬ ['>', '='] <:+: version ∧ ¬ ['<', '='] <:+: name
        | .eq =>
            '=' ∉ name ∧ name.getLast? ≠ some '>' ∧ name.getLast? ≠ some '<' ∧
              ¬ ['>', '='] <:+: version ∧ ¬ ['<', '='] <:+: version
        | .gt => '=' ∉ name ∧ '>' ∉ name ∧ '=' ∉ version
        | .lt => '=' ∉ name ∧ '>' ∉ name ∧ '<' ∉ name ∧ '=' ∉ version ∧ '>' ∉ version

/-- No field of the rule is read as another, and no end of its text as whitespace around it. -/
structure Readable (rule : DependencyRule) : Prop where
  splits : Splits rule.name rule.constraint
  plain : '(' ∉ rule.name ∧ ∀ c ∈ rule.constraint, '(' ∉ c.version
  starts : ∀ c, rule.name.head? = some c → isWhitespace c = false
  named : rule.symbolVersion = none → rule.name ≠ []
  ends : rule.symbolVersion = none →
    ∀ c, ((rule.constraint.map (·.version)).getD rule.name).getLast? = some c → isWhitespace c = false

theorem splitOperator_cons_none {token : Text} {op : VersionOp} {rest : List (Text × VersionOp)} {s name : Text} :
    splitOperator ((token, op) :: rest) s = some (name, none) ↔
      cutAt token s = none ∧ splitOperator rest s = some (name, none) := by
  rw [splitOperator]
  cases cutAt token s with
  | none => simp
  | some split => by_cases missing : split.2 = [] ∨ split.1 = [] <;> simp [missing]

theorem splitOperator_cons_some {token : Text} {op : VersionOp} {rest : List (Text × VersionOp)} {s name : Text}
    {constraint : VersionConstraint} :
    splitOperator ((token, op) :: rest) s = some (name, some constraint) ↔
      (cutAt token s = some (name, constraint.version) ∧ op = constraint.op ∧
          name ≠ [] ∧ constraint.version ≠ []) ∨
        (cutAt token s = none ∧ splitOperator rest s = some (name, some constraint)) := by
  obtain ⟨op', version⟩ := constraint
  rw [splitOperator]
  cases cutAt token s with
  | none => simp
  | some split =>
      obtain ⟨front, back⟩ := split
      by_cases missing : back = [] ∨ front = []
      · simp only [if_pos missing, reduceCtorEq, Option.some.injEq, Prod.mk.injEq, false_and, or_false, false_iff]
        rintro ⟨⟨rfl, rfl⟩, -, named, versioned⟩
        exact missing.elim versioned named
      · simp only [if_neg missing, reduceCtorEq, Option.some.injEq, Prod.mk.injEq, false_and, or_false,
          VersionConstraint.mk.injEq]
        constructor
        · rintro ⟨rfl, rfl, rfl⟩
          exact ⟨⟨rfl, rfl⟩, rfl, fun none => missing (.inr none), fun none => missing (.inl none)⟩
        · rintro ⟨⟨rfl, rfl⟩, rfl, -, -⟩
          exact ⟨rfl, rfl, rfl⟩

section Operators

variable {name version : Text} {x y : Char}

theorem pair_absent (absent : x ∉ name ∨ y ∉ name) : ¬ [x, y] <:+: name := by
  intro inside
  rcases absent with absent | absent
  · exact absent (inside.subset (by simp))
  · exact absent (inside.subset (by simp))

/-- Where a pair is first found in a text that has it between a name and a version. -/
theorem cutAt_pair (differ : x ≠ y) :
    cutAt [x, y] (name ++ ([x, y] ++ version)) = some (name, version) ↔ ¬ [x, y] <:+: name := by
  have short : ¬ [x, y] <:+: [x] := fun inside => by simpa using inside.length_le
  rw [cutAt_eq_some_iff (List.cons_ne_nil x [y]), List.dropLast_cons_cons, List.dropLast_singleton, pair_infix_append]
  simp [short, differ]

theorem cutAt_char : cutAt [x] (name ++ ([x] ++ version)) = some (name, version) ↔ x ∉ name := by
  rw [cutAt_singleton_iff]
  simp

theorem not_ge_le : cutAt ['>', '='] (name ++ (['<', '='] ++ version)) = none ↔
    ¬ ['>', '='] <:+: name ∧ ¬ ['>', '='] <:+: version := by
  have short : ¬ ['>', '='] <:+: ['<', '='] := pair_absent (by decide)
  rw [cutAt_eq_none (by decide), pair_infix_append, pair_infix_append]
  simp [short]

/-- A pair that ends in the operator `=` stands in the name, in the version, or across the end of the name. -/
theorem not_pair_eq (differ : x ≠ '=') : cutAt [x, '='] (name ++ (['='] ++ version)) = none ↔
    ¬ [x, '='] <:+: name ∧ name.getLast? ≠ some x ∧ ¬ [x, '='] <:+: version := by
  have short : ¬ [x, '='] <:+: ['='] := pair_absent (.inl (by simpa using differ))
  rw [cutAt_eq_none (List.cons_ne_nil x ['=']), pair_infix_append, pair_infix_append]
  simp [short, differ.symm, and_comm]

theorem not_char (differ : x ≠ y) : cutAt [x] (name ++ ([y] ++ version)) = none ↔ x ∉ name ∧ x ∉ version := by
  rw [cutAt_singleton_eq_none]
  simp [differ]

/-- No `=` at all, so neither operator that ends in it. -/
theorem not_pair_of_not_eq (absent : cutAt ['='] version = none) : cutAt [x, '='] version = none := by
  rw [cutAt_eq_none (List.cons_ne_nil x ['='])]
  exact pair_absent (.inr (cutAt_singleton_eq_none.mp absent))

end Operators

theorem splitOperator_front_iff {name : Text} {constraint : Option VersionConstraint} :
    splitOperator ops (front name constraint) = some (name, constraint) ↔ Splits name constraint := by
  cases constraint with
  | none =>
      have nil : splitOperator [] name = some (name, none) := rfl
      simp only [ops, splitOperator_cons_none, front, Option.elim_none, List.append_nil, nil, and_true, Splits]
      constructor
      · rintro ⟨-, -, eq, gt, lt⟩
        exact ⟨cutAt_singleton_eq_none.mp eq, cutAt_singleton_eq_none.mp gt, cutAt_singleton_eq_none.mp lt⟩
      · rintro ⟨eq, gt, lt⟩
        have none := cutAt_singleton_eq_none.mpr eq
        exact ⟨not_pair_of_not_eq none, not_pair_of_not_eq none, none, cutAt_singleton_eq_none.mpr gt,
          cutAt_singleton_eq_none.mpr lt⟩
  | some constraint =>
      obtain ⟨op, version⟩ := constraint
      have nil (s : Text) : splitOperator [] s ≠ some (name, some ⟨op, version⟩) := by simp [splitOperator]
      cases op with
      | ge =>
          simp only [ops, splitOperator_cons_some, nil, front, Option.elim_some, VersionOp.asStr, reduceCtorEq,
            false_and, and_false, or_false, true_and, Splits, cutAt_pair (show '>' ≠ '=' by decide)]
          tauto
      | le =>
          simp only [ops, splitOperator_cons_some, nil, front, Option.elim_some, VersionOp.asStr, reduceCtorEq,
            false_and, and_false, or_false, false_or, true_and, Splits, cutAt_pair (show '<' ≠ '=' by decide),
            not_ge_le]
          tauto
      | eq =>
          simp only [ops, splitOperator_cons_some, nil, front, Option.elim_some, VersionOp.asStr, reduceCtorEq,
            false_and, and_false, or_false, false_or, true_and, Splits, cutAt_char,
            not_pair_eq (show '>' ≠ '=' by decide), not_pair_eq (show '<' ≠ '=' by decide)]
          constructor
          · rintro ⟨⟨-, notGt, ge⟩, ⟨-, notLt, le⟩, eq, named, versioned⟩
            exact ⟨named, versioned, eq, notGt, notLt, ge, le⟩
          · rintro ⟨named, versioned, eq, notGt, notLt, ge, le⟩
            exact ⟨⟨pair_absent (.inr eq), notGt, ge⟩, ⟨pair_absent (.inr eq), notLt, le⟩, eq, named, versioned⟩
      | gt =>
          simp only [ops, splitOperator_cons_some, nil, front, Option.elim_some, VersionOp.asStr, reduceCtorEq,
            false_and, and_false, or_false, false_or, true_and, Splits, cutAt_char]
          constructor
          · rintro ⟨-, -, eq, gt, named, versioned⟩
            obtain ⟨name_eq, version_eq⟩ := (not_char (by decide)).mp eq
            exact ⟨named, versioned, name_eq, gt, version_eq⟩
          · rintro ⟨named, versioned, name_eq, gt, version_eq⟩
            have eq := (not_char (show '=' ≠ '>' by decide)).mpr ⟨name_eq, version_eq⟩
            exact ⟨not_pair_of_not_eq eq, not_pair_of_not_eq eq, eq, gt, named, versioned⟩
      | lt =>
          simp only [ops, splitOperator_cons_some, nil, front, Option.elim_some, VersionOp.asStr, reduceCtorEq,
            false_and, and_false, or_false, false_or, true_and, Splits, cutAt_char,
            not_char (show '>' ≠ '<' by decide)]
          constructor
          · rintro ⟨-, -, eq, ⟨name_gt, version_gt⟩, lt, named, versioned⟩
            obtain ⟨name_eq, version_eq⟩ := (not_char (by decide)).mp eq
            exact ⟨named, versioned, name_eq, name_gt, lt, version_eq, version_gt⟩
          · rintro ⟨named, versioned, name_eq, name_gt, lt, version_eq, version_gt⟩
            have eq := (not_char (show '=' ≠ '<' by decide)).mpr ⟨name_eq, version_eq⟩
            exact ⟨not_pair_of_not_eq eq, not_pair_of_not_eq eq, eq, ⟨name_gt, version_gt⟩, lt, named, versioned⟩

theorem open_not_mem_front {name : Text} {constraint : Option VersionConstraint} :
    '(' ∉ front name constraint ↔ '(' ∉ name ∧ ∀ c ∈ constraint, '(' ∉ c.version := by
  cases constraint with
  | none => simp [front]
  | some constraint =>
      obtain ⟨op, version⟩ := constraint
      have plain : '(' ∉ op.asStr := by cases op <;> decide
      simp [front, plain]

theorem head_display {rule : DependencyRule} (named : rule.name ≠ []) : rule.display.head? = rule.name.head? := by
  obtain ⟨c, rest, eq⟩ := List.exists_cons_of_ne_nil named
  simp [display, front, eq]

theorem getLast_display {rule : DependencyRule} (none : rule.symbolVersion = none)
    (splits : Splits rule.name rule.constraint) :
    rule.display.getLast? = ((rule.constraint.map (·.version)).getD rule.name).getLast? := by
  obtain ⟨name, constraint, symbolVersion⟩ := rule
  subst none
  cases constraint with
  | none => simp [display, front]
  | some constraint =>
      obtain ⟨-, versioned, -⟩ := splits
      obtain ⟨c, last⟩ := Option.ne_none_iff_exists'.mp (mt List.getLast?_eq_none_iff.mp versioned)
      simp [display, front, List.getLast?_append, last]

/-- Written and read back, a rule is the same exactly when no field of it is read as another. -/
theorem parse_display_iff {rule : DependencyRule} : fromStr rule.display = .ok rule ↔ Readable rule := by
  rw [fromStr_display_iff, splitOperator_front_iff, open_not_mem_front]
  constructor
  · rintro ⟨something, stripped, plain, splits⟩
    refine ⟨splits, plain, ?_, ?_, ?_⟩
    · intro c first
      apply stripped.1 c
      rw [head_display (by rintro nil; simp [nil] at first), first]
    · intro none nil
      apply something
      obtain ⟨name, constraint, symbolVersion⟩ := rule
      subst none nil
      cases constraint with
      | none => rfl
      | some constraint => exact absurd rfl splits.1
    · intro none c last
      apply stripped.2 c
      rw [getLast_display none splits, last]
  · intro readable
    refine ⟨?_, ⟨?_, ?_⟩, readable.plain, readable.splits⟩
    · intro nothing
      rcases display_eq rule with ⟨none, -⟩ | ⟨sv, -, prints⟩
      · have first := head_display (readable.named none)
        rw [nothing] at first
        exact readable.named none (List.head?_eq_none_iff.mp first.symm)
      · rw [nothing] at prints
        simp at prints
    · intro c first
      by_cases named : rule.name = []
      · -- nothing before the symbol version
        have bare : rule.constraint = none := by
          cases constraint : rule.constraint with
          | none => rfl
          | some constraint' =>
              have splits := readable.splits
              rw [constraint] at splits
              exact absurd named splits.1
        rcases display_eq rule with ⟨none, -⟩ | ⟨sv, -, prints⟩
        · exact absurd named (readable.named none)
        · have opening : c = '(' := by
            rw [prints, named, bare] at first
            simpa [front, eq_comm] using first
          rw [opening]
          decide
      · apply readable.starts c
        rw [← head_display named, first]
    · intro c last
      rcases display_eq rule with ⟨none, -⟩ | ⟨sv, -, prints⟩
      · apply readable.ends none c
        rw [← getLast_display none readable.splits, last]
      · have closing : c = ')' := by
          rw [prints, getLast_closed, Option.some.injEq] at last
          exact last.symm
        rw [closing]
        decide

end DependencyRule

end OmarchyPool.Manifest
