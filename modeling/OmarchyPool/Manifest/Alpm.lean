/-
# OmarchyPool.Manifest.Alpm -- libalpm's comparison, and where the port agrees with it

`alpm_pkg_vercmp` as libalpm computes it: `parseEVR` finds the epoch, the version and the
release by walking pointers, and `rpmvercmp` compares each, epochs too, as strings.  The port
(`Manifest.Vercmp`) works on slices, and reads the epoch into a `u64`.

Segment by segment the two are the same (`rpmvercmp_eq`).  They part in the epoch: an epoch
of 2^64 or more is read as 0, and an empty one before a `:` is not read at all, so that the
`:` stays in the version.  `Regular` strings have neither, up to versions of separators
alone, where the `:` does not show; among them the port agrees, and every other string it
misplaces (`vercmp_agrees_iff`).
-/
import OmarchyPool.Manifest.Vercmp

namespace OmarchyPool.Manifest

open Lib

set_option autoImplicit false

namespace Alpm

/-! ## libalpm -/

/-- `strcmp`, as a sign. -/
def strcmp : Bytes → Bytes → Int
  | [], [] => 0
  | [], _ :: _ => -1
  | _ :: _, [] => 1
  | a :: one, b :: two => if a < b then -1 else if b < a then 1 else strcmp one two

/-- The final showdown, when a string has run out. -/
def showdown (one two : Bytes) : Int :=
  if one = [] ∧ two = [] then 0
  else if (one = [] ∧ ¬ two.head?.any isAlphabetic) ∨ one.head?.any isAlphabetic then -1
  else 1

/-- Two segments: numbers by their digits without leading zeros. -/
def segcmp (isnum : Bool) (one two : Bytes) : Int :=
  let one := if isnum then one.dropWhile (· == zero) else one
  let two := if isnum then two.dropWhile (· == zero) else two
  if isnum ∧ two.length < one.length then 1
  else if isnum ∧ one.length < two.length then -1
  else strcmp one two

inductive Step where
  | ret (rc : Int)
  | next (one two : Bytes)

/-- One round of rpm's loop; a pointer is the rest of its string. -/
def step (ptr1 ptr2 : Bytes) : Step :=
  if ptr1 = [] ∨ ptr2 = [] then .ret (showdown ptr1 ptr2)
  else
    let one := ptr1.dropWhile (!isAlphanumeric ·)
    let two := ptr2.dropWhile (!isAlphanumeric ·)
    if one = [] ∨ two = [] then .ret (showdown one two)
    else if ptr1.length - one.length ≠ ptr2.length - two.length then
      .ret (if ptr1.length - one.length < ptr2.length - two.length then -1 else 1)
    else
      let isnum := one.head?.any isDigit
      let end1 := one.dropWhile (ofKind isnum)
      let end2 := two.dropWhile (ofKind isnum)
      -- "this cannot happen"
      if one.length - end1.length = 0 then .ret (-1)
      else if two.length - end2.length = 0 then .ret (if isnum then 1 else -1)
      else
        let rc := segcmp isnum (one.take (one.length - end1.length)) (two.take (two.length - end2.length))
        if rc ≠ 0 then .ret rc else .next end1 end2

theorem step_shorter {ptr1 ptr2 end1 end2 : Bytes} (next : step ptr1 ptr2 = .next end1 end2) :
    end1.length < ptr1.length := by
  unfold step at next
  split at next
  · cases next
  extract_lets one two isnum rest1 rest2 rc at next
  split at next
  · cases next
  split at next
  · cases next
  split at next
  · cases next
  rename_i moved
  split at next
  · cases next
  split at next
  · cases next
  injection next with isEnd
  rw [← isEnd]
  have shorter : one.length ≤ ptr1.length := (List.dropWhile_sublist _).length_le
  have shorter' : rest1.length ≤ one.length := (List.dropWhile_sublist _).length_le
  omega

/-- rpm's loop. -/
def walk (one two : Bytes) : Int :=
  match _next : step one two with
  | .ret rc => rc
  | .next one' two' => walk one' two'
termination_by one.length
decreasing_by exact step_shorter _next

def rpmvercmp (a b : Bytes) : Int := if a = b then 0 else walk a b

structure Evr where
  epoch : Bytes
  version : Bytes
  release : Option Bytes

/-- `strrchr`: the text before the last hyphen, and after it. -/
def cutLast (text : Bytes) : Option (Bytes × Bytes) :=
  match text.reverse.dropWhile (· != hyphen) with
  | [] => none
  | _ :: before => some (before.reverse, (text.reverse.takeWhile (· != hyphen)).reverse)

def parseEVR (evr : Bytes) : Evr :=
  let digits := evr.takeWhile isDigit
  let s := evr.dropWhile isDigit
  let (epoch, version) := if s.head? = some colon then (if digits = [] then [zero] else digits, s.tail)
    else ([zero], evr)
  match cutLast version with
  | some (version, release) => ⟨epoch, version, some release⟩
  | none => ⟨epoch, version, none⟩

/-- `alpm_pkg_vercmp`. -/
def pkgVercmp (a b : Bytes) : Int :=
  if a = b then 0
  else
    let one := parseEVR a
    let two := parseEVR b
    if rpmvercmp one.epoch two.epoch ≠ 0 then rpmvercmp one.epoch two.epoch
    else if rpmvercmp one.version two.version ≠ 0 then rpmvercmp one.version two.version
    else match one.release, two.release with
      | some rel1, some rel2 => rpmvercmp rel1 rel2
      | _, _ => 0

end Alpm

/-! ## The port's segment walk is libalpm's -/

def sign : Ordering → Int
  | .lt => -1
  | .eq => 0
  | .gt => 1

theorem length_sub_dropWhile {α : Type} (p : α → Bool) (l : List α) :
    l.length - (l.dropWhile p).length = (l.takeWhile p).length := by
  have whole := congrArg List.length (List.takeWhile_append_dropWhile (p := p) (l := l))
  rw [List.length_append] at whole
  omega

theorem compare_byte (a b : UInt8) : compare a b = compare a.toNat b.toNat := by
  show compareOfLessAndEq a b = compareOfLessAndEq a.toNat b.toNat
  simp only [compareOfLessAndEq, UInt8.lt_iff_toNat_lt, ← UInt8.toNat_inj]

theorem strcmp_eq (one two : Bytes) : Alpm.strcmp one two = sign (compare one two) := by
  induction one generalizing two with
  | nil => cases two <;> rfl
  | cons a rest ih =>
      cases two with
      | nil => rfl
      | cons b others =>
          rw [List.compare_eq_compareLex, List.compareLex_cons_cons, Alpm.strcmp, compare_byte]
          simp only [UInt8.lt_iff_toNat_lt]
          rcases Nat.lt_trichotomy a.toNat b.toNat with less | same | more
          · rw [compare_lt_iff_lt.mpr less, if_pos less]
            rfl
          · rw [same, compare_eq_iff_eq.mpr rfl, if_neg (Nat.lt_irrefl _), if_neg (Nat.lt_irrefl _)]
            exact ih others
          · rw [compare_gt_iff_gt.mpr more, if_neg (Nat.lt_asymm more), if_pos more]
            rfl

theorem segcmp_eq (isnum : Bool) (one two : Bytes) : Alpm.segcmp isnum one two = sign (segmentCmp isnum one two) := by
  unfold Alpm.segcmp segmentCmp stripLeadingZeros
  cases isnum with
  | false => simp [strcmp_eq]
  | true =>
      simp only [if_true, true_and, drop_takeWhile_length]
      generalize one.dropWhile (· == zero) = one
      generalize two.dropWhile (· == zero) = two
      rcases Nat.lt_trichotomy one.length two.length with less | same | more
      · rw [compare_lt_iff_lt.mpr less, if_neg (by omega), if_pos less]
        rfl
      · rw [compare_eq_iff_eq.mpr same, if_neg (by omega), if_neg (by omega), strcmp_eq]
        rfl
      · rw [compare_gt_iff_gt.mpr more, if_pos more]
        rfl

theorem showdown_eq (one two : Bytes) (ran : one = [] ∨ two = []) : Alpm.showdown one two = sign (remainder one two) := by
  unfold Alpm.showdown remainder
  cases one with
  | nil =>
      cases two with
      | nil => rfl
      | cons b others => cases alpha : isAlphabetic b <;> simp [alpha, sign]
  | cons a rest =>
      obtain rfl : two = [] := ran.resolve_left (by simp)
      cases alpha : isAlphabetic a <;> simp [alpha, sign]

/-- A round of the port is a round of libalpm's loop. -/
theorem step_eq (one two : Bytes) :
    Alpm.step one two = match round one two with
      | .ends verdict => .ret (sign verdict)
      | .goesOn one' two' => .next one' two' := by
  unfold Alpm.step round
  simp only [drop_takeWhile_length, length_sub_dropWhile, Bool.or_eq_true, List.isEmpty_iff]
  by_cases ran : one = [] ∨ two = []
  · simp only [ran, if_true, showdown_eq one two ran]
  simp only [ran, if_false]
  by_cases ranOut : one.dropWhile (!isAlphanumeric ·) = [] ∨ two.dropWhile (!isAlphanumeric ·) = []
  · simp only [ranOut, if_true, showdown_eq _ _ ranOut]
  simp only [ranOut, if_false]
  have starts : ¬ ((one.dropWhile (!isAlphanumeric ·)).takeWhile
      (ofKind ((one.dropWhile (!isAlphanumeric ·)).head?.any isDigit))).length = 0 := by
    obtain ⟨a, rest, isRest⟩ := List.exists_cons_of_ne_nil (fun none => ranOut (.inl none))
    have first := @ofKind_head one a (by rw [isRest]; rfl)
    rw [isRest, List.head?_cons, Option.any_some, List.takeWhile_cons, if_pos first]
    simp
  generalize (one.takeWhile (!isAlphanumeric ·)).length = sepA
  generalize (two.takeWhile (!isAlphanumeric ·)).length = sepB
  generalize one.dropWhile (!isAlphanumeric ·) = one at starts ⊢
  generalize two.dropWhile (!isAlphanumeric ·) = two
  by_cases differ : sepA ≠ sepB
  · rw [if_pos differ, if_pos differ]
    by_cases fewer : sepA < sepB <;> simp [fewer, sign]
  rw [if_neg differ, if_neg differ]
  generalize one.head?.any isDigit = isnum at starts ⊢
  rw [if_neg starts]
  by_cases other : (two.takeWhile (ofKind isnum)).length = 0
  · rw [if_pos other, if_pos other]
    cases isnum <;> rfl
  rw [if_neg other, if_neg other, segcmp_eq]
  generalize segmentCmp isnum _ _ = ord
  cases ord <;> rfl

theorem walk_eq (one two : Bytes) : Alpm.walk one two = sign (walk one two) := by
  induction one, two using walk.induct with
  | case1 one two verdict ends =>
      rw [Alpm.walk, walk, step_eq, ends]
  | case2 one two one' two' goesOn ih =>
      rw [Alpm.walk, walk, step_eq, goesOn]
      exact ih

/-- Segment by segment, the port is libalpm. -/
theorem rpmvercmp_eq (a b : Bytes) : Alpm.rpmvercmp a b = sign (rpmvercmp a b) := by
  unfold Alpm.rpmvercmp rpmvercmp
  split
  · rfl
  · exact walk_eq a b

/-! ## The parts of a version -/

theorem cutLast_eq (text : Bytes) : Alpm.cutLast text = rsplitOnce hyphen text := by
  induction text with
  | nil => rfl
  | cons c rest ih =>
      unfold Alpm.cutLast at ih ⊢
      unfold rsplitOnce
      rw [← ih, List.reverse_cons, List.dropWhile_append, List.takeWhile_append]
      cases found : rest.reverse.dropWhile (· != hyphen) with
      | nil =>
          have whole : rest.reverse.takeWhile (· != hyphen) = rest.reverse := by
            have split := List.takeWhile_append_dropWhile (p := (· != hyphen)) (l := rest.reverse)
            rwa [found, List.append_nil] at split
          by_cases isHyphen : c = hyphen <;> simp [isHyphen, whole]
      | cons d before =>
          have short : (rest.reverse.takeWhile (· != hyphen)).length ≠ rest.reverse.length := by
            have split := congrArg List.length
              (List.takeWhile_append_dropWhile (p := (· != hyphen)) (l := rest.reverse))
            rw [found, List.length_append, List.length_cons] at split
            omega
          rw [List.length_reverse] at short
          simp [short]

theorem splitOnce_eq_some {separator : UInt8} {s e rest : Bytes} (found : splitOnce separator s = some (e, rest)) :
    s = e ++ separator :: rest := by
  induction s generalizing e with
  | nil => cases found
  | cons c others ih =>
      unfold splitOnce at found
      split at found
      · rename_i isSeparator
        cases found
        rw [isSeparator]
        rfl
      · obtain ⟨⟨e', rest'⟩, found', same⟩ := Option.map_eq_some_iff.mp found
        cases same
        rw [ih found']
        rfl

theorem splitOnce_append {separator : UInt8} {e rest : Bytes} (none : separator ∉ e) :
    splitOnce separator (e ++ separator :: rest) = some (e, rest) := by
  induction e with
  | nil => simp [splitOnce]
  | cons c others ih =>
      have notHere : c ≠ separator := fun same => none (by simp [same])
      simp [splitOnce, notHere, ih fun member => none (by simp [member])]

theorem colon_not_digit : isDigit colon = false := by decide

/-- What the port takes as the epoch: digits that a colon follows, if there are any. -/
theorem splitEpoch_eq (s : Bytes) :
    splitEpoch s = if (s.dropWhile isDigit).head? = some colon ∧ s.takeWhile isDigit ≠ [] then
      ((parseU64 (s.takeWhile isDigit)).getD 0, (s.dropWhile isDigit).tail) else (0, s) := by
  unfold splitEpoch
  have whole : s.takeWhile isDigit ++ s.dropWhile isDigit = s := List.takeWhile_append_dropWhile
  by_cases follows : (s.dropWhile isDigit).head? = some colon
  · obtain ⟨rest, isRest⟩ : ∃ rest, s.dropWhile isDigit = colon :: rest := by
      cases isDrop : s.dropWhile isDigit with
      | nil => simp [isDrop] at follows
      | cons c rest => exact ⟨rest, by simpa [isDrop] using follows⟩
    have digits : (s.takeWhile isDigit).all isDigit = true := List.all_takeWhile
    have none : colon ∉ s.takeWhile isDigit := fun member => by
      have := List.all_eq_true.mp digits _ member
      rw [colon_not_digit] at this
      cases this
    have split : splitOnce colon s = some (s.takeWhile isDigit, rest) := by
      rw [← @splitOnce_append colon _ rest none, ← isRest, whole]
    rw [split]
    simp only [digits, Bool.true_and, isRest, List.tail_cons, List.head?_cons, true_and]
    by_cases empty : s.takeWhile isDigit = [] <;> simp [empty]
  · rw [if_neg fun both => follows both.1]
    split
    · rename_i e rest found
      refine if_neg fun digits => follows ?_
      simp only [Bool.and_eq_true, List.all_eq_true] at digits
      rw [splitOnce_eq_some found, List.dropWhile_append_of_pos digits.1, List.dropWhile_cons, colon_not_digit]
      rfl
    · rfl

/-! ## Epochs -/

theorem digitOf_lt {c : UInt8} (digit : isDigit c = true) : digitOf c < 10 := by
  simp only [isDigit, Bool.and_eq_true, decide_eq_true_eq, UInt8.le_iff_toNat_le] at digit
  have high : c.toNat ≤ 57 := digit.2
  unfold digitOf
  omega

theorem compare_digit {c d : UInt8} (digitC : isDigit c = true) (digitD : isDigit d = true) :
    compare c d = compare (digitOf c) (digitOf d) := by
  simp only [isDigit, Bool.and_eq_true, decide_eq_true_eq, UInt8.le_iff_toNat_le] at digitC digitD
  have lowC : 48 ≤ c.toNat := digitC.1
  have lowD : 48 ≤ d.toNat := digitD.1
  rw [compare_byte]
  simp only [digitOf, compare, compareOfLessAndEq]
  grind

theorem digitOf_ne_zero {c : UInt8} (digit : isDigit c = true) (notZero : ¬ (c == zero) = true) : digitOf c ≠ 0 := by
  simp only [isDigit, Bool.and_eq_true, decide_eq_true_eq, UInt8.le_iff_toNat_le] at digit
  have low : 48 ≤ c.toNat := digit.1
  intro none
  have isZero : c.toNat = 48 := by
    unfold digitOf at none
    omega
  exact notZero (beq_iff_eq.mpr (UInt8.toNat_inj.mp isZero))

/-- Two numbers by their digits. -/
theorem segmentCmp_digits {a b : Bytes} (digitsA : ∀ c ∈ a, isDigit c = true) (digitsB : ∀ c ∈ b, isDigit c = true) :
    segmentCmp true a b = compare (value digitOf 10 a) (value digitOf 10 b) := by
  have isZero : ∀ c : UInt8, (c == zero) = true → digitOf c = 0 := by
    intro c same
    rw [beq_iff_eq.mp same]
    rfl
  have inA : ∀ c ∈ a.dropWhile (· == zero), isDigit c = true :=
    fun c member => digitsA c ((List.dropWhile_sublist _).subset member)
  have inB : ∀ c ∈ b.dropWhile (· == zero), isDigit c = true :=
    fun c member => digitsB c ((List.dropWhile_sublist _).subset member)
  have leads : ∀ l : Bytes, (∀ c ∈ l.dropWhile (· == zero), isDigit c = true) →
      ∀ c ∈ (l.dropWhile (· == zero)).head?, digitOf c ≠ 0 := by
    intro l digits c first
    refine digitOf_ne_zero (digits c (List.mem_of_mem_head? first)) ?_
    rw [dropWhile_head first]
    simp
  unfold segmentCmp stripLeadingZeros
  rw [if_pos rfl, drop_takeWhile_length, drop_takeWhile_length,
    ← value_dropWhile isZero a, ← value_dropWhile isZero b]
  exact compare_value (fun c inA' d inB' => compare_digit (inA c inA') (inB d inB')) (by decide)
    (fun c member => digitOf_lt (inA c member)) (fun c member => digitOf_lt (inB c member)) (leads a inA) (leads b inB)

/-- Numerals compare as numbers. -/
theorem rpmvercmp_digits {a b : Bytes} (digitsA : ∀ c ∈ a, isDigit c = true) (digitsB : ∀ c ∈ b, isDigit c = true)
    (someA : a ≠ []) (someB : b ≠ []) :
    rpmvercmp a b = compare (value digitOf 10 a) (value digitOf 10 b) := by
  unfold rpmvercmp
  split
  · rename_i same
    rw [same, compare_eq_iff_eq.mpr rfl]
  have noSeparator : ∀ l : Bytes, (∀ c ∈ l, isDigit c = true) → l.takeWhile (!isAlphanumeric ·) = [] := by
    intro l digits
    cases l with
    | nil => rfl
    | cons c rest => simp [isAlphanumeric, digits c (by simp)]
  have isNumber : a.head?.any isDigit = true := by
    obtain ⟨c, rest, rfl⟩ := List.exists_cons_of_ne_nil someA
    exact digitsA c (by simp)
  have wholeA : a.takeWhile (ofKind true) = a := List.takeWhile_eq_self_iff.mpr digitsA
  have wholeB : b.takeWhile (ofKind true) = b := List.takeWhile_eq_self_iff.mpr digitsB
  have isRound : round a b = if segmentCmp true a b ≠ .eq then .ends (segmentCmp true a b) else .goesOn [] [] := by
    unfold round
    simp only [noSeparator a digitsA, noSeparator b digitsB, List.length_nil, List.drop_zero, ne_eq, not_true_eq_false,
      if_false, isNumber, wholeA, wholeB, List.take_length, List.drop_length, Bool.or_eq_true, List.isEmpty_iff, someA,
      someB, or_self, List.length_eq_zero_iff]
  rw [← segmentCmp_digits digitsA digitsB]
  by_cases same : segmentCmp true a b = .eq
  · rw [if_neg (not_not.mpr same)] at isRound
    rw [walk_goesOn isRound, @walk_ends [] [] .eq rfl, same]
  · rw [if_pos same] at isRound
    exact walk_ends isRound

/-! ## Separators alone -/

/-- A version of separators, at least one. -/
def Blank (v : Bytes) : Prop := v ≠ [] ∧ ∀ c ∈ v, isAlphanumeric c = false

instance (v : Bytes) : Decidable (Blank v) := inferInstanceAs (Decidable (_ ∧ _))

/-- What a version compares to when all of its separators are skipped at once. -/
theorem rpmvercmp_blank {v : Bytes} (blank : Blank v) (w : Bytes) :
    rpmvercmp v w = if w = [] then .gt else remainder [] (w.dropWhile (!isAlphanumeric ·)) := by
  have skipped : v.dropWhile (!isAlphanumeric ·) = [] :=
    List.dropWhile_eq_nil_iff.mpr fun c member => by simp [blank.2 c member]
  unfold rpmvercmp
  split
  · rename_i same
    rw [← same, if_neg blank.1, skipped]
    rfl
  by_cases none : w = []
  · obtain ⟨c, rest, rfl⟩ := List.exists_cons_of_ne_nil blank.1
    have notAlpha : isAlphabetic c = false := by
      have := blank.2 c (by simp)
      simp only [isAlphanumeric, Bool.or_eq_false_iff] at this
      exact this.2
    rw [if_pos none, none]
    exact walk_ends (by simp [round, remainder, notAlpha])
  · rw [if_neg none]
    refine walk_ends ?_
    unfold round
    simp only [drop_takeWhile_length, skipped, List.isEmpty_nil, Bool.true_or, if_true, Bool.or_eq_true,
      List.isEmpty_iff, blank.1, none, or_self, if_false]

theorem blank_rpmvercmp {v : Bytes} (blank : Blank v) (w : Bytes) :
    rpmvercmp w v = if w = [] then .lt else remainder (w.dropWhile (!isAlphanumeric ·)) [] := by
  have skipped : v.dropWhile (!isAlphanumeric ·) = [] :=
    List.dropWhile_eq_nil_iff.mpr fun c member => by simp [blank.2 c member]
  unfold rpmvercmp
  split
  · rename_i same
    rw [same, if_neg blank.1, skipped]
    rfl
  by_cases none : w = []
  · obtain ⟨c, rest, rfl⟩ := List.exists_cons_of_ne_nil blank.1
    have notAlpha : isAlphabetic c = false := by
      have := blank.2 c (by simp)
      simp only [isAlphanumeric, Bool.or_eq_false_iff] at this
      exact this.2
    rw [if_pos none, none]
    exact walk_ends (by simp [round, remainder, notAlpha])
  · rw [if_neg none]
    refine walk_ends ?_
    unfold round
    simp only [drop_takeWhile_length, skipped, List.isEmpty_nil, Bool.or_true, if_true, Bool.or_eq_true,
      List.isEmpty_iff, blank.1, none, or_self, if_false]

/-- A version the port takes for another: itself, or one of separators for one of separators. -/
def Alike (v v' : Bytes) : Prop := v = v' ∨ Blank v ∧ Blank v'

theorem rpmvercmp_alike {v v' w w' : Bytes} (first : Alike v v') (second : Alike w w') :
    rpmvercmp v w = rpmvercmp v' w' := by
  have left : ∀ u, rpmvercmp v u = rpmvercmp v' u := by
    intro u
    rcases first with rfl | ⟨blank, blank'⟩
    · rfl
    · rw [rpmvercmp_blank blank, rpmvercmp_blank blank']
  have right : ∀ u, rpmvercmp u w = rpmvercmp u w' := by
    intro u
    rcases second with rfl | ⟨blank, blank'⟩
    · rfl
    · rw [blank_rpmvercmp blank, blank_rpmvercmp blank']
  rw [left, right]

/-! ## Where the port agrees -/

/-- The epoch fits a `u64`; and a version that starts with a colon has only separators after it. -/
def Regular (s : Bytes) : Prop :=
  value digitOf 10 (Alpm.parseEVR s).epoch < 2 ^ 64 ∧
    (s.head? = some colon → Blank (Alpm.parseEVR s).version)

instance (s : Bytes) : Decidable (Regular s) := inferInstanceAs (Decidable (_ ∧ (_ → _)))

/-- The parts libalpm finds, as the port names them. -/
theorem parseEVR_eq (s : Bytes) :
    Alpm.parseEVR s =
      if (s.dropWhile isDigit).head? = some colon then
        ⟨if s.takeWhile isDigit = [] then [zero] else s.takeWhile isDigit,
          (splitRelease (s.dropWhile isDigit).tail).1, (splitRelease (s.dropWhile isDigit).tail).2⟩
      else ⟨[zero], (splitRelease s).1, (splitRelease s).2⟩ := by
  unfold Alpm.parseEVR splitRelease
  simp only [cutLast_eq]
  by_cases follows : (s.dropWhile isDigit).head? = some colon
  · simp only [follows, if_true]
    cases rsplitOnce hyphen (s.dropWhile isDigit).tail <;> rfl
  · simp only [follows, if_false]
    cases rsplitOnce hyphen s <;> rfl

theorem parse_eq (s : Bytes) :
    Version.parse s =
      if (s.dropWhile isDigit).head? = some colon ∧ s.takeWhile isDigit ≠ [] then
        ⟨(parseU64 (s.takeWhile isDigit)).getD 0, (splitRelease (s.dropWhile isDigit).tail).1,
          (splitRelease (s.dropWhile isDigit).tail).2⟩
      else ⟨0, (splitRelease s).1, (splitRelease s).2⟩ := by
  unfold Version.parse
  rw [splitEpoch_eq]
  split <;> rfl

theorem epoch_digits (s : Bytes) :
    (∀ c ∈ (Alpm.parseEVR s).epoch, isDigit c = true) ∧ (Alpm.parseEVR s).epoch ≠ [] := by
  have zeroDigit : ∀ c ∈ [zero], isDigit c = true := by decide +kernel
  rw [parseEVR_eq]
  split
  · dsimp only
    split
    · exact ⟨zeroDigit, by simp⟩
    · rename_i some_
      exact ⟨fun c member => List.mem_takeWhile_imp member, some_⟩
  · exact ⟨zeroDigit, by simp⟩

/-- A leading colon is part of the version to the port. -/
theorem splitRelease_colon (rest : Bytes) :
    splitRelease (colon :: rest) = (colon :: (splitRelease rest).1, (splitRelease rest).2) := by
  have notHyphen : colon ≠ hyphen := by decide
  unfold splitRelease
  rw [rsplitOnce]
  cases rsplitOnce hyphen rest with
  | none => simp [notHyphen]
  | some split => rfl

theorem head_colon_iff {s : Bytes} :
    s.head? = some colon ↔ (s.dropWhile isDigit).head? = some colon ∧ s.takeWhile isDigit = [] := by
  cases s with
  | nil => simp
  | cons c rest =>
      cases digit : isDigit c with
      | true =>
          simp only [List.head?_cons, Option.some.injEq, List.takeWhile_cons, digit, if_true, reduceCtorEq, and_false,
            iff_false]
          rintro rfl
          rw [colon_not_digit] at digit
          cases digit
      | false => simp [digit]

/-- Of a regular string the port reads the epoch libalpm reads, its release, and a version it
compares as libalpm's. -/
theorem parse_of_regular {s : Bytes} (regular : Regular s) :
    (Version.parse s).epoch = value digitOf 10 (Alpm.parseEVR s).epoch ∧
      Alike (Version.parse s).pkgver (Alpm.parseEVR s).version ∧
      (Version.parse s).pkgrel = (Alpm.parseEVR s).release := by
  obtain ⟨fits, blank⟩ := regular
  rw [parse_eq]
  rw [parseEVR_eq] at fits blank ⊢
  by_cases follows : (s.dropWhile isDigit).head? = some colon
  · simp only [follows, if_true, true_and] at fits blank ⊢
    by_cases none : s.takeWhile isDigit = []
    · have starts : s.head? = some colon := head_colon_iff.mpr ⟨follows, none⟩
      obtain ⟨rest, isRest⟩ : ∃ rest, s = colon :: rest := by
        cases s with
        | nil => cases starts
        | cons c rest => exact ⟨rest, by simpa using starts⟩
      have tail : (s.dropWhile isDigit).tail = rest := by
        rw [isRest, List.dropWhile_cons, colon_not_digit]
        rfl
      have blankRest := blank starts
      rw [tail] at blankRest
      simp only [none, ne_eq, not_true_eq_false, if_false, if_true]
      rw [tail, isRest, splitRelease_colon]
      refine ⟨rfl, .inr ⟨⟨by simp, ?_⟩, blankRest⟩, rfl⟩
      intro c member
      rcases List.mem_cons.mp member with rfl | inRest
      · decide
      · exact blankRest.2 c inRest
    · simp only [none, if_false] at fits
      simp only [ne_eq, none, not_false_eq_true, if_true, if_false]
      refine ⟨?_, .inl rfl, trivial⟩
      rw [parseU64, readBelow_eq (by decide) (by decide), if_pos fits]
      rfl
  · simp only [follows, if_false, false_and]
    exact ⟨rfl, .inl rfl, trivial⟩

theorem sign_then (o p : Ordering) : sign (o.then p) = if sign o ≠ 0 then sign o else sign p := by
  cases o <;> simp [sign]

theorem rpmvercmp_self (v : Bytes) : rpmvercmp v v = .eq := if_pos rfl

/-- On regular strings the port agrees. -/
theorem vercmp_of_regular {a b : Bytes} (regularA : Regular a) (regularB : Regular b) :
    sign (vercmp a b) = Alpm.pkgVercmp a b := by
  obtain ⟨epochA, versionA, releaseA⟩ := parse_of_regular regularA
  obtain ⟨epochB, versionB, releaseB⟩ := parse_of_regular regularB
  have epochs : sign (compare (Version.parse a).epoch (Version.parse b).epoch) =
      Alpm.rpmvercmp (Alpm.parseEVR a).epoch (Alpm.parseEVR b).epoch := by
    rw [rpmvercmp_eq, epochA, epochB, rpmvercmp_digits (epoch_digits a).1 (epoch_digits b).1 (epoch_digits a).2
      (epoch_digits b).2]
  have versions : sign (rpmvercmp (Version.parse a).pkgver (Version.parse b).pkgver) =
      Alpm.rpmvercmp (Alpm.parseEVR a).version (Alpm.parseEVR b).version := by
    rw [rpmvercmp_eq, rpmvercmp_alike versionA versionB]
  unfold Alpm.pkgVercmp
  split
  · rename_i same
    subst same
    unfold vercmp
    rw [sign_then, sign_then, compare_eq_iff_eq.mpr rfl, rpmvercmp_self]
    cases (Version.parse a).pkgrel with
    | none => rfl
    | some release => simp [rpmvercmp_self, sign]
  · unfold vercmp
    rw [sign_then, sign_then, epochs, versions, releaseA, releaseB]
    dsimp only
    generalize Alpm.rpmvercmp (Alpm.parseEVR a).epoch (Alpm.parseEVR b).epoch = epoch
    generalize Alpm.rpmvercmp (Alpm.parseEVR a).version (Alpm.parseEVR b).version = version
    by_cases noEpoch : epoch = 0
    · by_cases noVersion : version = 0
      · simp only [noEpoch, noVersion, ne_eq, not_true_eq_false, if_false]
        cases (Alpm.parseEVR a).release <;> cases (Alpm.parseEVR b).release <;> simp [rpmvercmp_eq, sign]
      · simp only [noEpoch, noVersion, ne_eq, not_true_eq_false, if_false, not_false_eq_true, if_true]
    · simp only [noEpoch, ne_eq, not_false_eq_true, if_true]

/-! ## Where it does not -/

/-- An epoch that does not fit is read as 0, and loses to 1. -/
theorem vercmp_of_huge {a : Bytes} (huge : ¬ value digitOf 10 (Alpm.parseEVR a).epoch < 2 ^ 64) :
    sign (vercmp a (ascii "1:")) ≠ Alpm.pkgVercmp a (ascii "1:") := by
  have one : Version.parse (ascii "1:") = ⟨1, [], none⟩ := by decide +kernel
  have oneEvr : (Alpm.parseEVR (ascii "1:")).epoch = ascii "1" := by decide +kernel
  have oneValue : value digitOf 10 (ascii "1") = 1 := by decide +kernel
  have zeroEpoch : (Version.parse a).epoch = 0 := by
    rw [parse_eq]
    split
    · rename_i both
      rw [parseEVR_eq, if_pos both.1] at huge
      dsimp only at huge
      rw [if_neg both.2] at huge
      dsimp only
      rw [parseU64, readBelow_eq (by decide) (by decide), if_neg huge]
      rfl
    · rfl
  have port : sign (vercmp a (ascii "1:")) = -1 := by
    unfold vercmp
    dsimp only
    rw [one, zeroEpoch]
    rfl
  have more : Alpm.rpmvercmp (Alpm.parseEVR a).epoch (ascii "1") = 1 := by
    rw [rpmvercmp_eq, rpmvercmp_digits (epoch_digits a).1 (by decide +kernel) (epoch_digits a).2 (by decide +kernel), oneValue,
      compare_gt_iff_gt.mpr (by omega)]
    rfl
  have differs : a ≠ ascii "1:" := by
    rintro rfl
    rw [oneEvr, oneValue] at huge
    exact huge (by decide)
  have alpm : Alpm.pkgVercmp a (ascii "1:") = 1 := by
    unfold Alpm.pkgVercmp
    rw [if_neg differs]
    dsimp only
    rw [oneEvr, more]
    rfl
  rw [port, alpm]
  decide

/-- A colon before a version that is not blank makes it newer than itself. -/
theorem rpmvercmp_colon {v : Bytes} (notBlank : ¬ Blank v) : rpmvercmp (colon :: v) v = .gt := by
  have differs : colon :: v ≠ v := fun same => by simpa using congrArg List.length same
  have separator : isAlphanumeric colon = false := by decide
  unfold rpmvercmp
  rw [if_neg differs]
  refine walk_ends ?_
  by_cases none : v = []
  · subst none
    decide
  · have left : v.dropWhile (!isAlphanumeric ·) ≠ [] := by
      intro skipped
      refine notBlank ⟨none, fun c member => ?_⟩
      simpa using List.dropWhile_eq_nil_iff.mp skipped c member
    unfold round
    simp only [drop_takeWhile_length]
    simp only [List.dropWhile_cons, List.takeWhile_cons, separator, Bool.not_false, if_true, List.isEmpty_cons,
      Bool.false_or, List.isEmpty_iff, none, left, Bool.or_eq_true, or_self, if_false, List.length_cons]
    rw [if_pos (by omega), if_neg (by omega)]

theorem zeroed_evr (rest : Bytes) :
    Alpm.parseEVR (zero :: colon :: rest) = ⟨[zero], (splitRelease rest).1, (splitRelease rest).2⟩ := by
  have zeroDigit : isDigit zero = true := by decide
  rw [parseEVR_eq]
  simp [colon_not_digit, zeroDigit]

theorem vercmp_of_colon {rest : Bytes} (notBlank : ¬ Blank (Alpm.parseEVR (colon :: rest)).version) :
    sign (vercmp (colon :: rest) (ascii "0:" ++ rest)) ≠ Alpm.pkgVercmp (colon :: rest) (ascii "0:" ++ rest) := by
  have zeroed : ascii "0:" ++ rest = zero :: colon :: rest := rfl
  have zeroDigit : isDigit zero = true := by decide
  rw [zeroed]
  have evr' := zeroed_evr rest
  have evr : Alpm.parseEVR (colon :: rest) = ⟨[zero], (splitRelease rest).1, (splitRelease rest).2⟩ := by
    rw [parseEVR_eq]
    simp [colon_not_digit]
  rw [evr] at notBlank
  have alpm : Alpm.pkgVercmp (colon :: rest) (zero :: colon :: rest) = 0 := by
    unfold Alpm.pkgVercmp
    split
    · rfl
    rw [evr, evr']
    cases (splitRelease rest).2 <;> simp [Alpm.rpmvercmp]
  have ported : Version.parse (colon :: rest) = ⟨0, colon :: (splitRelease rest).1, (splitRelease rest).2⟩ := by
    rw [parse_eq]
    simp [colon_not_digit, splitRelease_colon]
  have ported' : Version.parse (zero :: colon :: rest) = ⟨0, (splitRelease rest).1, (splitRelease rest).2⟩ := by
    rw [parse_eq]
    simp [colon_not_digit, zeroDigit]
    decide
  rw [alpm]
  unfold vercmp
  rw [ported, ported']
  dsimp only
  rw [compare_eq_iff_eq.mpr rfl, rpmvercmp_colon notBlank]
  show sign .gt ≠ 0
  decide

theorem regular_zeroed (rest : Bytes) : Regular (ascii "0:" ++ rest) := by
  have zeroed : ascii "0:" ++ rest = zero :: colon :: rest := rfl
  rw [zeroed]
  refine ⟨?_, fun starts => absurd (Option.some.inj starts) (by decide)⟩
  rw [zeroed_evr]
  show value digitOf 10 [zero] < 2 ^ 64
  decide

/-- Against every regular string, the port agrees with libalpm exactly on the regular ones. -/
theorem vercmp_agrees_iff (a : Bytes) :
    (∀ b, Regular b → sign (vercmp a b) = Alpm.pkgVercmp a b) ↔ Regular a := by
  constructor
  · intro agrees
    refine ⟨?_, fun starts => ?_⟩
    · by_contra huge
      exact vercmp_of_huge huge (agrees (ascii "1:") (by decide +kernel))
    · by_contra notBlank
      obtain ⟨rest, rfl⟩ : ∃ rest, a = colon :: rest := by
        cases a with
        | nil => cases starts
        | cons c rest => exact ⟨rest, by simpa using starts⟩
      refine vercmp_of_colon notBlank (agrees _ (regular_zeroed rest))
  · exact fun regular b regularB => vercmp_of_regular regular regularB

/-- An empty epoch, and one of 2^64. -/
theorem vercmp_disagrees :
    (vercmp (ascii ":1.0") (ascii "1.0") = .gt ∧ Alpm.pkgVercmp (ascii ":1.0") (ascii "1.0") = 0) ∧
    (vercmp (ascii "18446744073709551616:1") (ascii "1:1") = .lt ∧
      Alpm.pkgVercmp (ascii "18446744073709551616:1") (ascii "1:1") = 1) ∧
    ¬ ∀ a b, sign (vercmp a b) = Alpm.pkgVercmp a b := by
  have empty : vercmp (ascii ":1.0") (ascii "1.0") = .gt ∧ Alpm.pkgVercmp (ascii ":1.0") (ascii "1.0") = 0 := by
    decide +kernel
  refine ⟨empty, by decide +kernel, fun agrees => ?_⟩
  have same := agrees (ascii ":1.0") (ascii "1.0")
  rw [empty.1, empty.2] at same
  cases same

end OmarchyPool.Manifest
