/-
# OmarchyPool.Lib.Text -- cutting a text at what it holds

A text cut at the first place a token stands (`cutAt`) or at the last (`cutAtLast`), a text without the
characters of a kind at its ends (`strip`), and the lines of a text (`lines`), which are read as they were
written but for a carriage return at the end (`lines_unlines`).  A cut gives the text back,
and finds the token where nothing before it makes the token up earlier (`cutAt_eq_some_iff`): for a token
of two characters, neither in the front nor across its end (`pair_infix_append`).
-/
import Mathlib.Data.List.DropRight
import OmarchyPool.Lib.Separator

namespace OmarchyPool.Lib

set_option autoImplicit false

variable {α : Type}

theorem singleton_infix {c : α} {s : List α} : [c] <:+: s ↔ c ∈ s := by
  constructor
  · intro inside
    exact inside.subset (List.mem_singleton_self c)
  · intro member
    obtain ⟨front, back, rfl⟩ := List.append_of_mem member
    exact ⟨front, back, by simp⟩

section Cut

variable [DecidableEq α]

/-- What stands before and after the first place the token, which is not empty, stands. -/
def cutAt (token : List α) : List α → Option (List α × List α)
  | [] => none
  | c :: rest =>
      if token.isPrefixOf (c :: rest) then some ([], (c :: rest).drop token.length)
      else (cutAt token rest).map fun split => (c :: split.1, split.2)

/-- What stands before and after the last place the token stands. -/
def cutAtLast (token : List α) : List α → Option (List α × List α)
  | [] => none
  | c :: rest =>
      match cutAtLast token rest with
      | some split => some (c :: split.1, split.2)
      | none => if token.isPrefixOf (c :: rest) then some ([], (c :: rest).drop token.length) else none

variable {token s front back : List α} {c : α}

theorem cutAt_eq_append (found : cutAt token s = some (front, back)) : s = front ++ (token ++ back) := by
  induction s generalizing front with
  | nil => cases found
  | cons d rest ih =>
      unfold cutAt at found
      split at found
      · rename_i here
        obtain ⟨after, eq⟩ := List.isPrefixOf_iff_prefix.mp here
        simp only [Option.some.injEq, Prod.mk.injEq] at found
        obtain ⟨rfl, rfl⟩ := found
        simp [← eq]
      · obtain ⟨split, later, eq⟩ := Option.map_eq_some_iff.mp found
        simp only [Prod.mk.injEq] at eq
        obtain ⟨rfl, rfl⟩ := eq
        rw [List.cons_append, ← ih later]

theorem cutAt_eq_none (nonempty : token ≠ []) : cutAt token s = none ↔ ¬ token <:+: s := by
  induction s with
  | nil => simp [cutAt, nonempty]
  | cons d rest ih =>
      unfold cutAt
      rw [List.infix_cons_iff]
      split
      · rename_i here
        simp [List.isPrefixOf_iff_prefix.mp here]
      · rename_i notHere
        rw [List.isPrefixOf_iff_prefix] at notHere
        simp [notHere, ih]

/-- Where a token that stands in a text already stands in it with less after it. -/
theorem cutAt_append (nonempty : token ≠ []) (first : ¬ token <:+: front ++ token.dropLast) :
    cutAt token (front ++ (token ++ back)) = some (front, back) := by
  induction front with
  | nil =>
      obtain ⟨t, rest, rfl⟩ := List.exists_cons_of_ne_nil nonempty
      have here : (t :: rest).isPrefixOf (t :: (rest ++ back)) = true :=
        List.isPrefixOf_iff_prefix.mpr (List.prefix_append (t :: rest) back)
      simp only [List.nil_append, List.cons_append, cutAt, here, if_true]
      simp
  | cons d rest ih =>
      rw [List.cons_append, List.infix_cons_iff, not_or] at first
      have notHere : ¬ token.isPrefixOf (d :: (rest ++ (token ++ back))) = true := by
        rw [List.isPrefixOf_iff_prefix]
        intro here
        have short : token <+: d :: (rest ++ token.dropLast) := by
          apply List.prefix_of_prefix_length_le here
          · simpa using List.prefix_append_right_inj (d :: rest) |>.mpr
              ((List.dropLast_prefix token).trans (List.prefix_append token back))
          · have pos := List.length_pos_iff.mpr nonempty
            simp only [List.length_cons, List.length_append, List.length_dropLast]
            omega
        exact first.1 short
      rw [List.cons_append, cutAt, if_neg notHere, ih first.2]
      rfl

theorem not_infix_of_cutAt (nonempty : token ≠ []) (found : cutAt token s = some (front, back)) :
    ¬ token <:+: front ++ token.dropLast := by
  induction s generalizing front with
  | nil => cases found
  | cons d rest ih =>
      have whole := cutAt_eq_append found
      unfold cutAt at found
      split at found
      · simp only [Option.some.injEq, Prod.mk.injEq] at found
        obtain ⟨rfl, -⟩ := found
        intro inside
        have le := inside.length_le
        have pos := List.length_pos_iff.mpr nonempty
        simp only [List.nil_append, List.length_dropLast] at le
        omega
      · rename_i notHere
        obtain ⟨split, later, eq⟩ := Option.map_eq_some_iff.mp found
        simp only [Prod.mk.injEq] at eq
        obtain ⟨rfl, rfl⟩ := eq
        rw [List.cons_append, List.infix_cons_iff, not_or]
        refine ⟨fun here => notHere ?_, ih later⟩
        rw [List.isPrefixOf_iff_prefix, whole]
        refine here.trans ?_
        have after := (List.dropLast_prefix token).trans (List.prefix_append token split.2)
        simpa using (List.prefix_append_right_inj (d :: split.1)).mpr after

theorem cutAt_eq_some_iff (nonempty : token ≠ []) :
    cutAt token s = some (front, back) ↔
      s = front ++ (token ++ back) ∧ ¬ token <:+: front ++ token.dropLast := by
  constructor
  · intro found
    exact ⟨cutAt_eq_append found, not_infix_of_cutAt nonempty found⟩
  · rintro ⟨rfl, first⟩
    exact cutAt_append nonempty first

theorem cutAt_singleton_iff :
    cutAt [c] s = some (front, back) ↔ s = front ++ c :: back ∧ c ∉ front := by
  rw [cutAt_eq_some_iff (List.cons_ne_nil c []), List.dropLast_singleton, List.append_nil, singleton_infix]
  rfl

theorem cutAt_singleton_eq_none : cutAt [c] s = none ↔ c ∉ s := by
  rw [cutAt_eq_none (List.cons_ne_nil c []), singleton_infix]

theorem cutAtLast_eq_none : cutAtLast [c] s = none ↔ c ∉ s := by
  induction s with
  | nil => simp [cutAtLast]
  | cons d rest ih =>
      unfold cutAtLast
      cases later : cutAtLast [c] rest with
      | some split =>
          have member : c ∈ rest := by
            by_contra absent
            rw [ih.mpr absent] at later
            cases later
          simp [member]
      | none =>
          have absent := ih.mp later
          by_cases here : c = d
          · simp [here]
          · simp [here, absent]

theorem cutAtLast_spec {split : List α × List α} (found : cutAtLast [c] s = some split) :
    s = split.1 ++ c :: split.2 ∧ c ∉ split.2 := by
  induction s generalizing split with
  | nil => cases found
  | cons d rest ih =>
      unfold cutAtLast at found
      cases later : cutAtLast [c] rest with
      | some inner =>
          rw [later, Option.some.injEq] at found
          subst found
          obtain ⟨whole, plain⟩ := ih later
          exact ⟨by rw [List.cons_append, ← whole], plain⟩
      | none =>
          rw [later] at found
          by_cases here : c = d
          · subst here
            have eq : ([], rest) = split := by simpa using found
            rw [← eq]
            exact ⟨rfl, cutAtLast_eq_none.mp later⟩
          · simp [here] at found

theorem cutAtLast_iff : cutAtLast [c] s = some (front, back) ↔ s = front ++ c :: back ∧ c ∉ back := by
  constructor
  · exact cutAtLast_spec
  · rintro ⟨whole, plain⟩
    cases found : cutAtLast [c] s with
    | none => exact absurd (by simp [whole]) (cutAtLast_eq_none.mp found)
    | some split =>
        obtain ⟨whole', plain'⟩ := cutAtLast_spec found
        obtain ⟨fronts, backs⟩ := split_last plain' plain (whole'.symm.trans whole)
        rw [← fronts, ← backs]

end Cut

/-- A pair stands in a text and what follows it in the one, in the other, or across. -/
theorem pair_infix_append {x y : α} {a b : List α} :
    [x, y] <:+: a ++ b ↔ [x, y] <:+: a ∨ [x, y] <:+: b ∨ (a.getLast? = some x ∧ b.head? = some y) := by
  induction a with
  | nil => simp
  | cons c rest ih =>
      rw [List.cons_append, List.infix_cons_iff, List.infix_cons_iff, ih]
      cases rest with
      | nil =>
          cases b with
          | nil => simp
          | cons d back =>
              have across : [x, y] <+: c :: d :: back ↔ c = x ∧ d = y := by
                simp [List.cons_prefix_cons, @eq_comm α x, @eq_comm α y]
              rw [List.nil_append, across]
              simp [or_comm]
      | cons d back => simp [List.cons_prefix_cons, or_assoc]

section Strip

variable (p : α → Bool)

/-- Without the characters of a kind at both ends. -/
def strip (s : List α) : List α := (s.dropWhile p).rdropWhile p

/-- Neither end is of the kind. -/
def Stripped (s : List α) : Prop := (∀ c, s.head? = some c → p c = false) ∧ ∀ c, s.getLast? = some c → p c = false

variable {p} {s : List α}

theorem strip_eq_self (stripped : Stripped p s) : strip p s = s := by
  have noFront : s.dropWhile p = s := by
    cases s with
    | nil => rfl
    | cons c rest => simp [stripped.1 c rfl]
  rw [strip, noFront, List.rdropWhile_eq_self_iff]
  intro nonempty
  simp [stripped.2 _ (List.getLast?_eq_some_getLast nonempty)]

theorem stripped_strip : Stripped p (strip p s) := by
  constructor
  · intro c first
    have front : (s.dropWhile p).head? = some c := by
      obtain ⟨back, eq⟩ := List.rdropWhile_prefix p (s.dropWhile p)
      rw [← eq, List.head?_append]
      unfold strip at first
      rw [first]
      rfl
    have nonempty : s.dropWhile p ≠ [] := by
      intro nil
      rw [nil] at front
      cases front
    rw [List.head?_eq_some_head nonempty, Option.some.injEq] at front
    rw [← front]
    simpa using List.head_dropWhile_not p nonempty
  · intro c last
    have nonempty : strip p s ≠ [] := by
      intro nil
      rw [nil] at last
      cases last
    rw [List.getLast?_eq_some_getLast nonempty, Option.some.injEq] at last
    rw [← last]
    exact Bool.eq_false_iff.mpr (List.rdropWhile_last_not p (s.dropWhile p) nonempty)

/-- A character of the kind at the end is no part of what stays. -/
theorem strip_concat {c : α} (kind : p c = true) : strip p (s ++ [c]) = strip p s := by
  unfold strip
  rw [List.dropWhile_append]
  split
  · rename_i nothing
    rw [List.isEmpty_iff.mp nothing, List.dropWhile_cons_of_pos kind, List.dropWhile_nil]
  · rw [List.rdropWhile_concat_pos _ _ _ kind]

theorem strip_eq_self_iff : strip p s = s ↔ Stripped p s := by
  constructor
  · intro same
    rw [← same]
    exact stripped_strip
  · exact strip_eq_self

end Strip

section Lines

/-- `str::lines`: a line ends in a newline, or in a carriage return and a newline, and the last one may end
with the text. -/
def lines : List Char → List (List Char)
  | [] => []
  | '\n' :: rest => [] :: lines rest
  | '\r' :: '\n' :: rest => [] :: lines rest
  | c :: rest =>
      match lines rest with
      | [] => [[c]]
      | line :: more => (c :: line) :: more

theorem lines_cons {c : Char} {rest : List Char} (notNewline : c ≠ '\n')
    (notEnd : ¬ (c = '\r' ∧ rest.head? = some '\n')) :
    lines (c :: rest) = match lines rest with
      | [] => [[c]]
      | line :: more => (c :: line) :: more := by
  rw [lines.eq_4]
  · exact notNewline
  · rintro rest' rfl rfl
    exact notEnd ⟨rfl, rfl⟩

/-- A line is read as it stands, but for a carriage return at its end. -/
theorem lines_append {line : List Char} (one : '\n' ∉ line) (noReturn : line.getLast? ≠ some '\r')
    (rest : List Char) : lines (line ++ '\n' :: rest) = line :: lines rest := by
  induction line with
  | nil => rfl
  | cons c line ih =>
      simp only [List.mem_cons, not_or] at one
      cases line with
      | nil =>
          rw [List.cons_append, lines_cons (Ne.symm one.1) (by rintro ⟨rfl, -⟩; simp at noReturn)]
          simp [lines]
      | cons d line =>
          have next := ih one.2 (by simpa using noReturn)
          rw [List.cons_append, lines_cons (Ne.symm one.1), next]
          rintro ⟨-, newline⟩
          simp only [List.cons_append, List.head?_cons, Option.some.injEq] at newline
          exact one.2 (by simp [newline])

/-- Without the carriage return at its end. -/
def dropReturn (line : List Char) : List Char := if line.getLast? = some '\r' then line.dropLast else line

theorem dropReturn_concat (line : List Char) : dropReturn (line ++ ['\r']) = line := by
  simp [dropReturn]

theorem dropReturn_of_ne {line : List Char} (noReturn : line.getLast? ≠ some '\r') : dropReturn line = line :=
  if_neg noReturn

theorem dropReturn_eq_self {line : List Char} : dropReturn line = line ↔ line.getLast? ≠ some '\r' := by
  constructor
  · intro same last
    have nonempty : line ≠ [] := by
      rintro rfl
      cases last
    have shorter := congrArg List.length same
    have pos := List.length_pos_iff.mpr nonempty
    rw [dropReturn, if_pos last, List.length_dropLast] at shorter
    omega
  · exact dropReturn_of_ne

/-- A line that is written, read again. -/
theorem lines_line {line : List Char} (one : '\n' ∉ line) (rest : List Char) :
    lines (line ++ '\n' :: rest) = dropReturn line :: lines rest := by
  by_cases last : line.getLast? = some '\r'
  · obtain ⟨front, rfl⟩ := List.getLast?_eq_some_iff.mp last
    rw [dropReturn_concat]
    have oneFront : '\n' ∉ front := fun member => one (List.mem_append_left _ member)
    clear last one
    induction front with
    | nil => rfl
    | cons c front ih =>
        simp only [List.mem_cons, not_or] at oneFront
        have next := ih oneFront.2
        rw [List.cons_append, List.cons_append, lines_cons (Ne.symm oneFront.1), next]
        rintro ⟨-, newline⟩
        cases front with
        | nil => simp at newline
        | cons d front =>
            simp only [List.cons_append, List.head?_cons, Option.some.injEq] at newline
            exact oneFront.2 (by simp [newline])
  · rw [dropReturn_of_ne last, lines_append one last]

/-- Every line written out, a newline behind it. -/
def unlines (ls : List (List Char)) : List Char := ls.flatMap (· ++ ['\n'])

@[simp] theorem unlines_nil : unlines [] = [] := rfl

theorem unlines_cons (line : List Char) (ls : List (List Char)) :
    unlines (line :: ls) = line ++ '\n' :: unlines ls := by
  simp [unlines]

theorem unlines_append (ls ls' : List (List Char)) : unlines (ls ++ ls') = unlines ls ++ unlines ls' :=
  List.flatMap_append

theorem unlines_eq_nil {ls : List (List Char)} : unlines ls = [] ↔ ls = [] := by
  cases ls with
  | nil => simp
  | cons line ls => simp [unlines_cons]

theorem lines_unlines {ls : List (List Char)} (each : ∀ line ∈ ls, '\n' ∉ line) :
    lines (unlines ls) = ls.map dropReturn := by
  induction ls with
  | nil => rfl
  | cons line ls ih =>
      rw [unlines_cons, lines_line (each line List.mem_cons_self), ih fun other member =>
        each other (List.mem_cons_of_mem _ member)]
      rfl

theorem newline_not_mem_lines {s line : List Char} (member : line ∈ lines s) : '\n' ∉ line := by
  induction s using lines.induct generalizing line with
  | case1 => cases member
  | case2 rest ih =>
      rcases List.mem_cons.mp member with rfl | later
      · exact List.not_mem_nil
      · exact ih later
  | case3 rest ih =>
      rcases List.mem_cons.mp member with rfl | later
      · exact List.not_mem_nil
      · exact ih later
  | case4 c rest notNewline notEnd none ih =>
      rw [lines.eq_4 _ _ notNewline notEnd, none] at member
      rw [List.mem_singleton.mp member]
      simpa using Ne.symm notNewline
  | case5 c rest notNewline notEnd first more eq ih =>
      rw [lines.eq_4 _ _ notNewline notEnd, eq] at member
      rcases List.mem_cons.mp member with rfl | later
      · simp only [List.mem_cons, not_or]
        exact ⟨Ne.symm notNewline, ih (by rw [eq]; exact List.mem_cons_self)⟩
      · exact ih (by rw [eq]; exact List.mem_cons_of_mem _ later)

end Lines

end OmarchyPool.Lib
