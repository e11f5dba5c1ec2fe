/-
# OmarchyPool.Manifest.VersionOrder -- version comparison is an order

`rpmvercmp` walks two strings at once.  Read alone, a string that does not end in a separator is a list
of tokens, one a segment, with how many separators stand before it, and a last token for its end
(`tokens`).  A round compares the next token of each: fewer separators first, letters before digits, and
the end of a string after letters that follow at once and before all else (`Token.rank`).  So the walk
is the lexicographic comparison of the two lists (`walk_tokens`), which is where its transitivity comes
from.

A string that ends in separators has no such reading.  Only the exchange of the two sides
(`vercmp_swap`) needs none.
-/
import OmarchyPool.Manifest.Vercmp

namespace OmarchyPool.Manifest

set_option autoImplicit false

/-! ## One round -/

theorem not_digit_of_alphabetic {c : UInt8} (alphabetic : isAlphabetic c = true) : isDigit c = false := by
  simp only [isAlphabetic, isDigit, Bool.or_eq_true, Bool.and_eq_true, decide_eq_true_eq, Bool.and_eq_false_iff,
    decide_eq_false_iff_not, UInt8.le_iff_toNat_le] at *
  have low : (48 : UInt8).toNat = 48 := rfl
  have high : (57 : UInt8).toNat = 57 := rfl
  have upper : (65 : UInt8).toNat = 65 := rfl
  have lower : (97 : UInt8).toNat = 97 := rfl
  omega

/-- A segment that starts with `b` is of the kind of its first byte alone. -/
theorem ofKind_iff {b : UInt8} (alphanumeric : isAlphanumeric b = true) (isnum : Bool) :
    ofKind isnum b = true ↔ isDigit b = isnum := by
  cases isnum with
  | true => simp [ofKind]
  | false =>
      cases digit : isDigit b with
      | true =>
          simp only [ofKind, Bool.false_eq_true, if_false, Bool.true_eq_false, iff_false]
          intro alphabetic
          rw [not_digit_of_alphabetic alphabetic] at digit
          cases digit
      | false =>
          simp only [isAlphanumeric, digit, Bool.false_or] at alphanumeric
          simp [ofKind, alphanumeric]

/-- The verdict of a round on two segments that are both there. -/
def segments (sepA sepB : Nat) (isnumA isnumB : Bool) (one two : Bytes) : Round :=
  if sepA ≠ sepB then .ends (if sepA < sepB then .lt else .gt)
  else if isnumA ≠ isnumB then .ends (if isnumA then .gt else .lt)
  else
    let ord := segmentCmp isnumA (one.takeWhile (ofKind isnumA)) (two.takeWhile (ofKind isnumA))
    if ord ≠ .eq then .ends ord else .goesOn (one.dropWhile (ofKind isnumA)) (two.dropWhile (ofKind isnumA))

theorem take_takeWhile_length {α : Type} (p : α → Bool) (l : List α) :
    l.take (l.takeWhile p).length = l.takeWhile p := by
  induction l with
  | nil => rfl
  | cons a rest ih => by_cases holds : p a <;> simp [holds, ih]

theorem round_ends {one two : Bytes} (ran : one = [] ∨ two = []) : round one two = .ends (remainder one two) := by
  unfold round
  rw [if_pos (by simpa using ran)]

theorem round_blank {one two : Bytes} (some_ : one ≠ [] ∧ two ≠ [])
    (ran : one.dropWhile (!isAlphanumeric ·) = [] ∨ two.dropWhile (!isAlphanumeric ·) = []) :
    round one two =
      .ends (remainder (one.dropWhile (!isAlphanumeric ·)) (two.dropWhile (!isAlphanumeric ·))) := by
  unfold round
  rw [if_neg (by simpa using some_)]
  simp only [drop_takeWhile_length]
  rw [if_pos (by simpa using ran)]

theorem round_segments {one two : Bytes} {a b : UInt8} {restA restB : Bytes}
    (segmentA : one.dropWhile (!isAlphanumeric ·) = a :: restA)
    (segmentB : two.dropWhile (!isAlphanumeric ·) = b :: restB) :
    round one two = segments (one.takeWhile (!isAlphanumeric ·)).length (two.takeWhile (!isAlphanumeric ·)).length
      (isDigit a) (isDigit b) (a :: restA) (b :: restB) := by
  have someA : one ≠ [] := by
    rintro rfl
    simp at segmentA
  have someB : two ≠ [] := by
    rintro rfl
    simp at segmentB
  have alphanumeric : isAlphanumeric b = true := by
    have head := @dropWhile_head _ (!isAlphanumeric ·) two b (by rw [segmentB]; rfl)
    simpa only [Bool.not_eq_false'] using head
  unfold round segments
  rw [if_neg (by simp [someA, someB])]
  simp only [drop_takeWhile_length, take_takeWhile_length, segmentA, segmentB, List.isEmpty_cons, Bool.or_self,
    Bool.false_eq_true, if_false, List.head?_cons, Option.any_some]
  by_cases differ : (one.takeWhile (!isAlphanumeric ·)).length ≠ (two.takeWhile (!isAlphanumeric ·)).length
  · rw [if_pos differ, if_pos differ]
  rw [if_neg differ, if_neg differ]
  by_cases kinds : isDigit a = isDigit b
  · have starts : ofKind (isDigit a) b = true := (ofKind_iff alphanumeric _).mpr kinds.symm
    have some_ : ¬((b :: restB).takeWhile (ofKind (isDigit a))).length = 0 := by simp [starts]
    rw [if_neg some_, if_neg (not_not_intro kinds)]
  · have stops : ¬ofKind (isDigit a) b = true := fun starts => kinds ((ofKind_iff alphanumeric _).mp starts).symm
    rw [if_pos (by simp [stops]), if_pos kinds]

/-! ## The two sides exchanged -/

def Round.swap : Round → Round
  | .ends verdict => .ends verdict.swap
  | .goesOn one two => .goesOn two one

theorem segmentCmp_swap (isnum : Bool) (sa sb : Bytes) : segmentCmp isnum sb sa = (segmentCmp isnum sa sb).swap := by
  unfold segmentCmp
  cases isnum with
  | true =>
      simp only [if_true, Ordering.swap_then]
      rw [← Std.OrientedOrd.eq_swap, ← Std.OrientedOrd.eq_swap]
  | false => exact Std.OrientedOrd.eq_swap

theorem segments_swap (sepA sepB : Nat) (isnumA isnumB : Bool) (one two : Bytes) :
    segments sepB sepA isnumB isnumA two one = (segments sepA sepB isnumA isnumB one two).swap := by
  unfold segments
  by_cases differ : sepA ≠ sepB
  · rw [if_pos differ, if_pos differ.symm]
    rcases Nat.lt_or_gt_of_ne differ with fewer | more
    · rw [if_pos fewer, if_neg (Nat.lt_asymm fewer)]
      rfl
    · rw [if_neg (Nat.lt_asymm more), if_pos more]
      rfl
  rw [if_neg differ, if_neg fun other => differ (Ne.symm other)]
  by_cases kinds : isnumA = isnumB
  · subst kinds
    rw [if_neg (not_not_intro rfl), if_neg (not_not_intro rfl), segmentCmp_swap]
    dsimp only
    cases segmentCmp isnumA (one.takeWhile (ofKind isnumA)) (two.takeWhile (ofKind isnumA)) <;> rfl
  · rw [if_pos kinds, if_pos (Ne.symm kinds)]
    cases isnumA <;> cases isnumB <;> simp_all [Round.swap]

theorem remainder_swap {one two : Bytes} (ran : one = [] ∨ two = []) :
    remainder two one = (remainder one two).swap := by
  cases one with
  | nil =>
      cases two with
      | nil => rfl
      | cons b rest => cases alphabetic : isAlphabetic b <;> simp [remainder, alphabetic]
  | cons a rest =>
      obtain rfl : two = [] := ran.resolve_left (by simp)
      cases alphabetic : isAlphabetic a <;> simp [remainder, alphabetic]

theorem round_swap (one two : Bytes) : round two one = (round one two).swap := by
  by_cases ran : one = [] ∨ two = []
  · rw [round_ends ran, round_ends ran.symm, remainder_swap ran]
    rfl
  rw [not_or] at ran
  by_cases blank : one.dropWhile (!isAlphanumeric ·) = [] ∨ two.dropWhile (!isAlphanumeric ·) = []
  · rw [round_blank ran blank, round_blank ran.symm blank.symm, remainder_swap blank]
    rfl
  rw [not_or] at blank
  obtain ⟨a, restA, segmentA⟩ := List.exists_cons_of_ne_nil blank.1
  obtain ⟨b, restB, segmentB⟩ := List.exists_cons_of_ne_nil blank.2
  rw [round_segments segmentA segmentB, round_segments segmentB segmentA, segments_swap]

theorem walk_swap (one two : Bytes) : walk two one = (walk one two).swap := by
  induction one, two using walk.induct with
  | case1 one two verdict ends =>
      rw [walk_ends ends]
      apply walk_ends
      rw [round_swap, ends]
      rfl
  | case2 one two one' two' goesOn ih =>
      rw [walk_goesOn goesOn, ← ih]
      apply walk_goesOn
      rw [round_swap, goesOn]
      rfl

theorem rpmvercmp_swap (a b : Bytes) : rpmvercmp b a = (rpmvercmp a b).swap := by
  unfold rpmvercmp
  by_cases same : a = b
  · rw [if_pos same, if_pos same.symm]
    rfl
  · rw [if_neg same, if_neg (Ne.symm same), walk_swap]

theorem vercmp_swap (a b : Bytes) : vercmp b a = (vercmp a b).swap := by
  unfold vercmp
  simp only [Ordering.swap_then]
  rw [← Std.OrientedOrd.eq_swap, ← rpmvercmp_swap]
  congr 1
  cases (Version.parse a).pkgrel with
  | none => cases (Version.parse b).pkgrel <;> rfl
  | some ra =>
      cases (Version.parse b).pkgrel with
      | none => rfl
      | some rb => exact rpmvercmp_swap ra rb

/-! ## Tokens -/

/-- A segment with the number of separators before it, or the end of the string. -/
inductive Token where
  | segment (separators : Nat) (isnum : Bool) (text : Bytes)
  | last
deriving DecidableEq, Repr

namespace Token

def separators : Token → Nat
  | .segment separators _ _ => separators
  | .last => 0

/-- Letters, then the end, then digits. -/
def rank : Token → Nat
  | .segment _ isnum _ => if isnum then 2 else 0
  | .last => 1

/-- What is compared of the text: a number without its leading zeros. -/
def significant : Token → Bytes
  | .segment _ isnum text => if isnum then stripLeadingZeros text else text
  | .last => []

/-- A longer number is bigger; letters are compared as they are. -/
def magnitude : Token → Nat
  | .segment _ isnum text => if isnum then (stripLeadingZeros text).length else 0
  | .last => 0

def cmp : Token → Token → Ordering :=
  compareLex (compareOn separators) (compareLex (compareOn rank)
    (compareLex (compareOn magnitude) (compareOn significant)))

instance : Ord Token := ⟨cmp⟩

instance : Std.TransOrd Token := by
  show Std.TransCmp cmp
  unfold cmp
  infer_instance

end Token

/-- The next segment of a string, and what follows it. -/
def next (s : Bytes) : Option (Token × Bytes) :=
  match s.dropWhile (!isAlphanumeric ·) with
  | [] => none
  | c :: rest =>
      some (.segment (s.takeWhile (!isAlphanumeric ·)).length (isDigit c)
        ((c :: rest).takeWhile (ofKind (isDigit c))), (c :: rest).dropWhile (ofKind (isDigit c)))

theorem next_some {s rest : Bytes} {token : Token} (is : next s = some (token, rest)) :
    ∃ c others, s.dropWhile (!isAlphanumeric ·) = c :: others ∧ ofKind (isDigit c) c = true ∧
      token = .segment (s.takeWhile (!isAlphanumeric ·)).length (isDigit c)
        ((c :: others).takeWhile (ofKind (isDigit c))) ∧
      rest = (c :: others).dropWhile (ofKind (isDigit c)) := by
  unfold next at is
  split at is
  · cases is
  · rename_i c others whole
    cases is
    exact ⟨c, others, whole, ofKind_head (by rw [whole]; rfl), rfl, rfl⟩

theorem next_suffix {s rest : Bytes} {token : Token} (is : next s = some (token, rest)) : rest <:+ s := by
  obtain ⟨c, others, whole, -, -, rfl⟩ := next_some is
  rw [← whole]
  exact (List.dropWhile_suffix _).trans (List.dropWhile_suffix _)

theorem next_shorter {s rest : Bytes} {token : Token} (is : next s = some (token, rest)) :
    rest.length < s.length := by
  obtain ⟨c, others, whole, starts, -, rfl⟩ := next_some is
  have shorter := (List.dropWhile_suffix (l := s) (!isAlphanumeric ·)).length_le
  have rest := (List.dropWhile_suffix (l := others) (ofKind (isDigit c))).length_le
  rw [whole, List.length_cons] at shorter
  rw [List.dropWhile_cons_of_pos starts]
  omega

/-- The segments of a string in order, and its end. -/
def tokens (s : Bytes) : List Token :=
  match _is : next s with
  | none => [.last]
  | some (token, rest) => token :: tokens rest
termination_by s.length
decreasing_by exact next_shorter _is

theorem tokens_last {s : Bytes} (is : next s = none) : tokens s = [.last] := by
  rw [tokens, is]

theorem tokens_segment {s rest : Bytes} {token : Token} (is : next s = some (token, rest)) :
    tokens s = token :: tokens rest := by
  rw [tokens, is]

/-- A string that does not end in a separator. -/
def Closed (s : Bytes) : Prop := ∀ c ∈ s.getLast?, isAlphanumeric c = true

instance (s : Bytes) : Decidable (Closed s) := inferInstanceAs (Decidable (∀ c ∈ s.getLast?, isAlphanumeric c = true))

theorem Closed.suffix {s rest : Bytes} (closed : Closed s) (suffix : rest <:+ s) : Closed rest := by
  intro c isLast
  obtain ⟨before, rfl⟩ := suffix
  apply closed
  rw [List.getLast?_append, isLast]
  rfl

/-- Only the empty one is all separators. -/
theorem Closed.next_none {s : Bytes} (closed : Closed s) : next s = none ↔ s = [] := by
  constructor
  · intro is
    by_contra some_
    unfold next at is
    split at is
    · rename_i blank
      have separator := List.dropWhile_eq_nil_iff.mp blank (s.getLast some_) (List.getLast_mem some_)
      have alphanumeric := closed (s.getLast some_) (List.getLast?_eq_some_getLast some_)
      rw [alphanumeric] at separator
      cases separator
    · cases is
  · rintro rfl
    rfl

/-! ## The walk is a comparison of tokens -/

theorem cmp_segments (sepA sepB : Nat) (isnumA isnumB : Bool) (textA textB : Bytes) :
    compare (Token.segment sepA isnumA textA) (.segment sepB isnumB textB) =
      if sepA ≠ sepB then (if sepA < sepB then .lt else .gt)
      else if isnumA ≠ isnumB then (if isnumA then .gt else .lt)
      else segmentCmp isnumA textA textB := by
  show (compare sepA sepB).then _ = _
  by_cases differ : sepA ≠ sepB
  · rw [if_pos differ]
    rcases Nat.lt_or_gt_of_ne differ with fewer | more
    · rw [if_pos fewer, Nat.compare_eq_lt.mpr fewer]
      rfl
    · rw [if_neg (Nat.lt_asymm more), Nat.compare_eq_gt.mpr more]
      rfl
  rw [if_neg differ, Nat.compare_eq_eq.mpr (not_not.mp differ)]
  cases isnumA <;> cases isnumB <;> rfl

/-- The end of a string against a segment: letters that follow at once make an older version. -/
theorem cmp_last {s rest : Bytes} {token : Token} (is : next s = some (token, rest)) :
    compare Token.last token = if s.head?.any isAlphabetic then .gt else .lt := by
  obtain ⟨c, others, whole, starts, rfl, -⟩ := next_some is
  cases s with
  | nil => simp at whole
  | cons first others' =>
      by_cases separator : isAlphanumeric first = true
      · rw [List.dropWhile_cons_of_neg (by simp [separator])] at whole
        cases whole
        rw [List.takeWhile_cons_of_neg (by simp [separator])]
        cases digit : isDigit c with
        | true =>
            have notAlphabetic : isAlphabetic c = false := by
              rw [Bool.eq_false_iff]
              intro alphabetic
              rw [not_digit_of_alphabetic alphabetic] at digit
              cases digit
            rw [List.head?_cons, Option.any_some, notAlphabetic]
            rfl
        | false =>
            have alphabetic : isAlphabetic c = true := by simpa [isAlphanumeric, digit] using separator
            rw [List.head?_cons, Option.any_some, alphabetic]
            rfl
      · have notAlphabetic : isAlphabetic first = false := by
          simp only [isAlphanumeric, Bool.or_eq_true, not_or, Bool.not_eq_true] at separator
          exact separator.2
        rw [List.head?_cons, Option.any_some, notAlphabetic,
          List.takeWhile_cons_of_pos (by simpa using separator)]
        rfl

theorem remainder_last {s rest : Bytes} {token : Token} (is : next s = some (token, rest)) :
    remainder [] s = compare Token.last token ∧ compare Token.last token ≠ .eq := by
  rw [cmp_last is]
  cases s with
  | nil => simp [next] at is
  | cons c others => cases alphabetic : isAlphabetic c <;> simp [remainder, alphabetic]

/-- Two lists are decided by their first tokens when these differ. -/
theorem compare_cons_of_ne {a b : Token} (differ : compare a b ≠ .eq) (as bs : List Token) :
    compare (a :: as) (b :: bs) = compare a b := by
  rw [List.compare_cons_cons]
  cases order : compare a b with
  | lt => rfl
  | eq => exact absurd order differ
  | gt => rfl

/-- One round on strings that do not end in a separator looks at the next token of each. -/
theorem round_next {one two restA restB : Bytes} {tokenA tokenB : Token} (isA : next one = some (tokenA, restA))
    (isB : next two = some (tokenB, restB)) :
    round one two = if compare tokenA tokenB ≠ .eq then .ends (compare tokenA tokenB) else .goesOn restA restB := by
  obtain ⟨a, othersA, wholeA, -, rfl, rfl⟩ := next_some isA
  obtain ⟨b, othersB, wholeB, -, rfl, rfl⟩ := next_some isB
  rw [round_segments wholeA wholeB, cmp_segments]
  unfold segments
  by_cases differ : (one.takeWhile (!isAlphanumeric ·)).length ≠ (two.takeWhile (!isAlphanumeric ·)).length
  · simp only [if_pos differ]
    split <;> simp
  simp only [if_neg differ]
  by_cases kinds : isDigit a = isDigit b
  · rw [if_neg (not_not_intro kinds), if_neg (not_not_intro kinds), kinds]
  · simp only [if_pos kinds]
    split <;> simp

theorem walk_tokens (one two : Bytes) (closedA : Closed one) (closedB : Closed two) :
    walk one two = compare (tokens one) (tokens two) := by
  induction one, two using walk.induct with
  | case1 one two verdict ends =>
      rw [walk_ends ends]
      cases isA : next one with
      | none =>
          obtain rfl := closedA.next_none.mp isA
          rw [round_ends (.inl rfl)] at ends
          cases ends
          cases isB : next two with
          | none =>
              obtain rfl := closedB.next_none.mp isB
              rw [tokens_last isA]
              rfl
          | some nextB =>
              obtain ⟨tokenB, restB⟩ := nextB
              obtain ⟨verdict, differ⟩ := remainder_last isB
              rw [tokens_last isA, tokens_segment isB, compare_cons_of_ne differ, verdict]
      | some nextA =>
          obtain ⟨tokenA, restA⟩ := nextA
          cases isB : next two with
          | none =>
              obtain rfl := closedB.next_none.mp isB
              rw [round_ends (.inr rfl)] at ends
              cases ends
              obtain ⟨verdict, differ⟩ := remainder_last isA
              have swapped : compare tokenA Token.last = (compare Token.last tokenA).swap := Std.OrientedOrd.eq_swap
              have differs : compare tokenA Token.last ≠ .eq := by
                rw [swapped]
                simpa using differ
              rw [tokens_last isB, tokens_segment isA, compare_cons_of_ne differs, swapped, ← verdict]
              exact remainder_swap (.inl rfl)
          | some nextB =>
              obtain ⟨tokenB, restB⟩ := nextB
              rw [round_next isA isB] at ends
              split at ends
              · rename_i differ
                cases ends
                rw [tokens_segment isA, tokens_segment isB, compare_cons_of_ne differ]
              · cases ends
  | case2 one two one' two' goesOn ih =>
      rw [walk_goesOn goesOn]
      cases isA : next one with
      | none =>
          rw [round_ends (.inl (closedA.next_none.mp isA))] at goesOn
          cases goesOn
      | some nextA =>
          cases isB : next two with
          | none =>
              rw [round_ends (.inr (closedB.next_none.mp isB))] at goesOn
              cases goesOn
          | some nextB =>
              obtain ⟨tokenA, restA⟩ := nextA
              obtain ⟨tokenB, restB⟩ := nextB
              rw [round_next isA isB] at goesOn
              split at goesOn
              · cases goesOn
              · rename_i same
                cases goesOn
                rw [ih (closedA.suffix (next_suffix isA)) (closedB.suffix (next_suffix isB)), tokens_segment isA,
                  tokens_segment isB, List.compare_cons_cons, not_not.mp same]
                rfl

theorem rpmvercmp_tokens {a b : Bytes} (closedA : Closed a) (closedB : Closed b) :
    rpmvercmp a b = compare (tokens a) (tokens b) := by
  unfold rpmvercmp
  split
  · rename_i same
    rw [same, Std.ReflOrd.compare_self]
  · exact walk_tokens a b closedA closedB

/-! ## Versions -/

/-- The strings of a version do not end in a separator. -/
structure Version.Closed (v : Version) : Prop where
  pkgver : Manifest.Closed v.pkgver
  pkgrel : ∀ release ∈ v.pkgrel, Manifest.Closed release

/-- A version as it is ordered among those that all carry a release, or all carry none. -/
def Version.cmp : Version → Version → Ordering :=
  compareLex (compareOn fun v => v.epoch) (compareLex (compareOn fun v => tokens v.pkgver)
    (compareOn fun v => tokens (v.pkgrel.getD [])))

instance : Std.TransCmp Version.cmp := by
  unfold Version.cmp
  infer_instance

theorem vercmp_cmp {a b : Bytes} (closedA : (Version.parse a).Closed) (closedB : (Version.parse b).Closed)
    (alike : (Version.parse a).pkgrel.isSome = (Version.parse b).pkgrel.isSome) :
    vercmp a b = (Version.parse a).cmp (Version.parse b) := by
  show ((compare (Version.parse a).epoch (Version.parse b).epoch).then
    (rpmvercmp (Version.parse a).pkgver (Version.parse b).pkgver)).then _ =
      (compare (Version.parse a).epoch (Version.parse b).epoch).then _
  rw [Ordering.then_assoc, rpmvercmp_tokens closedA.pkgver closedB.pkgver]
  congr 2
  show _ = compare (tokens ((Version.parse a).pkgrel.getD [])) (tokens ((Version.parse b).pkgrel.getD []))
  cases isA : (Version.parse a).pkgrel with
  | none =>
      rw [isA, Option.isSome_none, eq_comm, Option.isSome_eq_false_iff, Option.isNone_iff_eq_none] at alike
      rw [alike]
      exact Std.ReflOrd.compare_self.symm
  | some ra =>
      rw [isA, Option.isSome_some, eq_comm, Option.isSome_iff_exists] at alike
      obtain ⟨rb, isB⟩ := alike
      rw [isB]
      exact rpmvercmp_tokens (closedA.pkgrel ra isA) (closedB.pkgrel rb isB)

/-- A version that carries a release or one that carries none, closed. -/
structure Among (released : Bool) where
  text : Bytes
  carries : (Version.parse text).pkgrel.isSome = released
  closed : (Version.parse text).Closed

theorem Among.vercmp_eq {released : Bool} (a b : Among released) :
    vercmp a.text b.text = (Version.parse a.text).cmp (Version.parse b.text) :=
  vercmp_cmp a.closed b.closed (a.carries.trans b.carries.symm)

/-- Exchanging two versions reverses the verdict, and among versions that all carry a release or all carry none,
with no string that ends in a separator, `vercmp` is a total preorder. -/
theorem vercmp_orders :
    (∀ a b : Bytes, vercmp b a = (vercmp a b).swap) ∧
    ∀ released : Bool,
      (∀ a : Among released, vercmp a.text a.text = .eq) ∧
      (∀ a b : Among released, (vercmp a.text b.text).isLE ∨ (vercmp b.text a.text).isLE) ∧
      ∀ a b c : Among released, (vercmp a.text b.text).isLE → (vercmp b.text c.text).isLE →
        (vercmp a.text c.text).isLE := by
  refine ⟨vercmp_swap, fun released => ⟨?_, ?_, ?_⟩⟩
  · intro a
    rw [a.vercmp_eq a]
    exact Std.ReflCmp.compare_self
  · intro a b
    rw [vercmp_swap a.text b.text]
    cases vercmp a.text b.text <;> simp
  · intro a b c first second
    rw [a.vercmp_eq b] at first
    rw [b.vercmp_eq c] at second
    rw [a.vercmp_eq c]
    exact Std.TransCmp.isLE_trans first second

/-- A version of a few plain segments. -/
def among (text : String) (carries : (Version.parse (ascii text)).pkgrel.isSome = true)
    (pkgver : Closed (Version.parse (ascii text)).pkgver)
    (pkgrel : Closed ((Version.parse (ascii text)).pkgrel.getD [])) : Among true where
  text := ascii text
  carries := carries
  closed := ⟨pkgver, fun release is => by
    rw [Option.mem_def.mp is] at pkgrel
    exact pkgrel⟩

/-- The end of a string between letters that follow at once and a further number. -/
theorem vercmp_orders_beta :
    (vercmp (ascii "1.0b-1") (ascii "1.0-1")).isLE ∧ (vercmp (ascii "1.0-1") (ascii "1.0.1-1")).isLE ∧
      (vercmp (ascii "1.0b-1") (ascii "1.0.1-1")).isLE := by
  have beta : (vercmp (ascii "1.0b-1") (ascii "1.0-1")).isLE := by decide +kernel
  have point : (vercmp (ascii "1.0-1") (ascii "1.0.1-1")).isLE := by decide +kernel
  exact ⟨beta, point, (vercmp_orders.2 true).2.2
    (among "1.0b-1" (by decide) (by decide +kernel) (by decide +kernel))
    (among "1.0-1" (by decide) (by decide +kernel) (by decide +kernel))
    (among "1.0.1-1" (by decide) (by decide +kernel) (by decide +kernel)) beta point⟩

end OmarchyPool.Manifest
