/-
# OmarchyPool.Scrub.Tokens -- tokens taken out of a text

`scrubTokens` goes over a text and writes `[redacted]` for each token it comes to: a known prefix at the start
of a word, with sixteen or more token characters behind it.  Whether a word starts is told by what it has
written.

The text it is given is cut into characters it keeps and tokens it redacts (`Cuts`); what it writes is the
characters, and `[redacted]` for each token (`scrubTokens_cuts`).  What it writes holds no token any more
(`cuts_shown`), so scrubbing again changes nothing.
-/
import Mathlib.Data.List.Basic
import OmarchyPool.Manifest.Dependency

namespace OmarchyPool.Scrub

open Lib Manifest

set_option autoImplicit false

/-! ## `scrub_tokens` -/

/-- `omj.`, before the parts of a job token. -/
def jobPrefix : Text := "omj.".toList

/-- `TOKEN_PREFIXES`. -/
def tokenPrefixes : List Text :=
  ["omw_".toList, "ome_".toList, "omc_".toList, "oms_".toList, "oma_".toList, jobPrefix, "ghp_".toList, "gho_".toList,
    "ghs_".toList, "github_pat_".toList, "sk-".toList]

/-- `[redacted]`. -/
def redacted : Text := "[redacted]".toList

/-- `is_ascii_alphanumeric`, `_` or `-`. -/
def tokenChar (c : Char) : Bool := c.isAlphanum || c == '_' || c == '-'

/-- What may stand behind a prefix: a job token's parts are joined by dots. -/
def tokenCharOf (p : Text) (c : Char) : Bool := tokenChar c || (p == jobPrefix && c == '.')

/-- The first `n` bytes behind a prefix: as many as may stand there, but a sentence's full stop is no part. -/
def run (p tail : Text) : Text :=
  let cs := tail.takeWhile (tokenCharOf p)
  if p = jobPrefix then cs.rdropWhile (· == '.') else cs

/-- The last character written is none of a word's. -/
def wordStart (last : Option Char) : Bool := last.all fun c => !c.isAlphanum && c != '_'

/-- One turn of the loop over the prefixes: the token, and the rest behind it. -/
def tokenOf (start : Bool) (rest p : Text) : Option (Text × Text) :=
  match rest.dropPrefix? p with
  | none => none
  | some tail =>
      let n := (run p tail).length
      if 16 ≤ n ∧ start = true then some (p ++ tail.take n, tail.drop n) else none

def tokenAt (start : Bool) (rest : Text) : Option (Text × Text) := tokenPrefixes.findSome? (tokenOf start rest)

/-- The loop `'scan`: each turn takes at least one character of the rest. -/
def scan : Nat → Text → Text → Text
  | 0, out, _ => out
  | _ + 1, out, [] => out
  | fuel + 1, out, c :: rest =>
      match tokenAt (wordStart out.getLast?) (c :: rest) with
      | some (_, left) => scan fuel (out ++ redacted) left
      | none => scan fuel (out ++ [c]) rest

def scrubTokens (text : Text) : Text := scan text.length [] text

/-! ## How a text is cut -/

inductive Segment where
  | kept (c : Char)
  | token (s : Text)
deriving DecidableEq, Repr

/-- What a segment is in the text. -/
def Segment.source : Segment → Text
  | .kept c => [c]
  | .token s => s

/-- What is written for it. -/
def Segment.shown : Segment → Text
  | .kept c => [c]
  | .token _ => redacted

def source (segments : List Segment) : Text := segments.flatMap Segment.source

def shown (segments : List Segment) : Text := segments.flatMap Segment.shown

/-- A text behind a character is cut into tokens, each at the start of a word and as long as it goes, and
characters at which none starts. -/
inductive Cuts : Option Char → Text → List Segment → Prop
  | nil {last : Option Char} : Cuts last [] []
  | token {last : Option Char} {text token left : Text} {segments : List Segment} :
      tokenAt (wordStart last) text = some (token, left) → Cuts (some ']') left segments →
        Cuts last text (.token token :: segments)
  | kept {last : Option Char} {c : Char} {rest : Text} {segments : List Segment} :
      tokenAt (wordStart last) (c :: rest) = none → Cuts (some c) rest segments →
        Cuts last (c :: rest) (.kept c :: segments)

/-! ## A token -/

section Token

variable {p tail text token left r : Text} {start : Bool}

theorem run_isPrefix (p tail : Text) : run p tail <+: tail := by
  unfold run
  simp only
  split
  · exact (List.rdropWhile_prefix _ _).trans (List.takeWhile_prefix _)
  · exact List.takeWhile_prefix _

theorem run_chars : ∀ c ∈ run p tail, tokenCharOf p c = true := by
  intro c member
  have inside : c ∈ tail.takeWhile (tokenCharOf p) := by
    unfold run at member
    simp only at member
    split at member
    · exact (List.rdropWhile_prefix _ _).subset member
    · exact member
  exact List.mem_takeWhile_imp inside

/-- It ends in no full stop. -/
theorem run_last (job : p = jobPrefix) : (run p tail).getLast? ≠ some '.' := by
  unfold run
  simp only [if_pos job]
  intro last
  have nonempty : (tail.takeWhile (tokenCharOf p)).rdropWhile (· == '.') ≠ [] := by
    intro nil
    rw [nil] at last
    cases last
  have notDot := List.rdropWhile_last_not (· == '.') _ nonempty
  rw [List.getLast?_eq_some_getLast nonempty, Option.some.injEq] at last
  exact notDot (by rw [last]; rfl)

theorem rdropWhile_keeps {q : Char → Bool} {front back : Text} (ends : ∀ c, front.getLast? = some c → q c = false) :
    front <+: (front ++ back).rdropWhile q := by
  induction back using List.reverseRecOn with
  | nil =>
      have same : front.rdropWhile q = front := by
        rw [List.rdropWhile_eq_self_iff]
        intro nonempty
        rw [ends _ (List.getLast?_eq_some_getLast nonempty)]
        exact Bool.false_ne_true
      exact ⟨[], by rw [List.append_nil, same]⟩
  | append_singleton back c ih =>
      rw [← List.append_assoc]
      by_cases drops : q c = true
      · rw [List.rdropWhile_concat_pos _ _ _ drops]
        exact ih
      · rw [List.rdropWhile_concat_neg _ _ _ drops, List.append_assoc]
        exact List.prefix_append _ _

/-- Token characters that do not end in a full stop are all part of what goes on from them. -/
theorem le_run (chars : ∀ c ∈ r, tokenCharOf p c = true) (ends : p = jobPrefix → r.getLast? ≠ some '.') (more : Text) :
    r.length ≤ (run p (r ++ more)).length := by
  have whole : (r ++ more).takeWhile (tokenCharOf p) = r ++ more.takeWhile (tokenCharOf p) := by
    rw [List.takeWhile_append_of_pos chars]
  unfold run
  simp only [whole]
  split
  · rename_i job
    refine (rdropWhile_keeps ?_).length_le
    intro c last
    rw [beq_eq_false_iff_ne]
    rintro rfl
    exact ends job last
  · simp

/-- What stands behind a run goes on with no letter, digit, `_` or `-`. -/
theorem not_tokenChar_behind {c : Char} (behind : tail = run p tail ++ left) (first : left.head? = some c) :
    tokenChar c = false := by
  obtain ⟨rest, rfl⟩ := List.head?_eq_some_iff.mp first
  by_contra its
  rw [Bool.not_eq_false] at its
  -- one more character would have been part of the run
  have chars : ∀ d ∈ run p tail ++ [c], tokenCharOf p d = true := by
    intro d member
    rcases List.mem_append.mp member with inRun | isLast
    · exact run_chars d inRun
    · rw [List.mem_singleton.mp isLast, tokenCharOf, its]
      rfl
  have ends : p = jobPrefix → (run p tail ++ [c]).getLast? ≠ some '.' := by
    intro _ last
    rw [List.getLast?_concat, Option.some.injEq] at last
    rw [last] at its
    revert its
    decide
  have longer := le_run chars ends rest
  rw [List.append_assoc, List.singleton_append, ← behind, List.length_append, List.length_singleton] at longer
  omega

theorem tokenOf_some (found : tokenOf start text p = some (token, left)) :
    ∃ tail, text = p ++ tail ∧ start = true ∧ 16 ≤ (run p tail).length ∧ token = p ++ run p tail ∧
      tail = run p tail ++ left := by
  unfold tokenOf at found
  split at found
  · cases found
  · rename_i tail dropped
    simp only at found
    split at found
    · rename_i long
      obtain ⟨rfl, rfl⟩ := Prod.mk.inj (Option.some.inj found)
      obtain ⟨front, whole, same⟩ := List.dropPrefix?_eq_some_iff.mp dropped
      rw [eq_of_beq same] at whole
      have taken : tail.take (run p tail).length = run p tail := (List.prefix_iff_eq_take.mp (run_isPrefix p tail)).symm
      have parts := List.take_append_drop (run p tail).length tail
      rw [taken] at parts
      exact ⟨tail, whole, long.2, long.1, by rw [taken], parts.symm⟩
    · cases found

theorem tokenAt_some (found : tokenAt start text = some (token, left)) :
    ∃ p ∈ tokenPrefixes, ∃ tail, text = p ++ tail ∧ start = true ∧ 16 ≤ (run p tail).length ∧
      token = p ++ run p tail ∧ tail = run p tail ++ left := by
  obtain ⟨p, member, given⟩ := List.exists_of_findSome?_eq_some found
  exact ⟨p, member, tokenOf_some given⟩

/-- The text is the token and the rest, which is shorter. -/
theorem tokenAt_whole (found : tokenAt start text = some (token, left)) :
    text = token ++ left ∧ left.length < text.length := by
  obtain ⟨p, -, tail, rfl, -, long, rfl, parts⟩ := tokenAt_some found
  have lengths := congrArg List.length parts
  rw [List.length_append] at lengths
  refine ⟨?_, ?_⟩
  · rw [List.append_assoc, ← parts]
  · rw [List.length_append]
    omega

theorem tokenAt_of_run (member : p ∈ tokenPrefixes) (long : 16 ≤ (run p tail).length) :
    tokenAt true (p ++ tail) ≠ none := by
  intro nothing
  have unfound := List.findSome?_eq_none_iff.mp nothing p member
  have dropped : (p ++ tail).dropPrefix? p = some tail := List.dropPrefix?_append_of_beq tail (beq_self_eq_true p)
  rw [tokenOf, dropped] at unfound
  simp only at unfound
  rw [if_pos ⟨long, trivial⟩] at unfound
  cases unfound

end Token

/-! ## What is written -/

section Written

variable {last : Option Char} {text : Text} {segments : List Segment}

@[simp] theorem source_kept (c : Char) (rest : List Segment) : source (.kept c :: rest) = c :: source rest := rfl

@[simp] theorem source_token (s : Text) (rest : List Segment) : source (.token s :: rest) = s ++ source rest := rfl

@[simp] theorem shown_kept (c : Char) (rest : List Segment) : shown (.kept c :: rest) = c :: shown rest := rfl

@[simp] theorem shown_token (s : Text) (rest : List Segment) : shown (.token s :: rest) = redacted ++ shown rest := rfl

theorem source_cuts (cuts : Cuts last text segments) : source segments = text := by
  induction cuts with
  | nil => rfl
  | token found _ ih =>
      rw [source_token, ih, ← (tokenAt_whole found).1]
  | kept _ _ ih => rw [source_kept, ih]

/-- Every text is cut. -/
theorem exists_cuts (last : Option Char) (text : Text) : ∃ segments, Cuts last text segments := by
  induction length : text.length using Nat.strong_induction_on generalizing last text with
  | _ n ih =>
      cases text with
      | nil => exact ⟨[], .nil⟩
      | cons c rest =>
          cases found : tokenAt (wordStart last) (c :: rest) with
          | none =>
              obtain ⟨segments, cuts⟩ := ih rest.length (by rw [← length]; simp) (some c) rest rfl
              exact ⟨_, .kept found cuts⟩
          | some pair =>
              obtain ⟨token, left⟩ := pair
              have shorter : left.length < n := by
                rw [← length]
                exact (tokenAt_whole found).2
              obtain ⟨segments, cuts⟩ := ih left.length shorter (some ']') left rfl
              exact ⟨_, .token found cuts⟩

/-- The loop writes what the cut shows. -/
theorem scan_cuts {out : Text} {fuel : Nat} (cuts : Cuts out.getLast? text segments) (enough : text.length ≤ fuel) :
    scan fuel out text = out ++ shown segments := by
  generalize eq : out.getLast? = last at cuts
  induction cuts generalizing out fuel with
  | nil =>
      cases fuel with
      | zero => simp [scan, shown]
      | succ fuel => simp [scan, shown]
  | @token last text token left segments found _ ih =>
      have shorter := (tokenAt_whole found).2
      cases fuel with
      | zero => omega
      | succ fuel =>
          cases text with
          | nil => simp at shorter
          | cons c rest =>
              have lastShown : (out ++ redacted).getLast? = some ']' := by
                rw [List.getLast?_append]
                rfl
              simp only [scan, eq, found]
              rw [ih (by omega) lastShown, shown_token, List.append_assoc]
  | @kept last c rest segments nothing _ ih =>
      cases fuel with
      | zero => simp at enough
      | succ fuel =>
          simp only [scan, eq, nothing]
          rw [List.length_cons] at enough
          rw [ih (by omega) (by simp), shown_kept, List.append_assoc, List.singleton_append]

/-- What is written is the characters that are kept, and `[redacted]` for each token. -/
theorem scrubTokens_cuts (cuts : Cuts none text segments) : scrubTokens text = shown segments :=
  scan_cuts (show Cuts ([] : Text).getLast? text segments from cuts) le_rfl

/-! ## What is written holds no token -/

theorem tokenAt_redacted {c : Char} (inside : c ∈ redacted) (start : Bool) (rest : Text) :
    tokenAt start (c :: rest) = none := by
  rw [← Option.not_isSome_iff_eq_none, Option.isSome_iff_exists]
  rintro ⟨⟨token, left⟩, found⟩
  obtain ⟨p, member, tail, eq, -⟩ := tokenAt_some found
  have nonempty : ∀ p ∈ tokenPrefixes, p ≠ [] := by decide
  have first : ∀ p ∈ tokenPrefixes, p.head?.all (fun d => !redacted.contains d) = true := by decide
  obtain ⟨d, more, rfl⟩ := List.exists_cons_of_ne_nil (nonempty p member)
  have outside : d ∉ redacted := by simpa using first _ member
  rw [List.cons_append, List.cons.injEq] at eq
  rw [eq.1] at inside
  exact outside inside

/-- What is written without a `[redacted]` stands in the text too. -/
theorem prefix_of_shown {y : Text} (cuts : Cuts last text segments) (here : y <+: shown segments) (plain : '[' ∉ y) :
    y <+: text := by
  induction cuts generalizing y with
  | nil => exact here
  | token _ _ _ =>
      cases y with
      | nil => exact List.nil_prefix
      | cons d more =>
          obtain ⟨first, -⟩ := List.cons_prefix_cons.mp (show d :: more <+: '[' :: _ from here)
          exact absurd (by simp [first]) plain
  | kept _ _ ih =>
      cases y with
      | nil => exact List.nil_prefix
      | cons d more =>
          rw [shown_kept, List.cons_prefix_cons] at here
          rw [List.mem_cons, not_or] at plain
          rw [List.cons_prefix_cons]
          exact ⟨here.1, ih here.2 plain.2⟩

theorem cuts_redacted {y : Text} (inside : ∀ c ∈ y, c ∈ redacted) {s : Text}
    (cuts : Cuts (y.getLast?.or last) s segments) : Cuts last (y ++ s) (y.map .kept ++ segments) := by
  induction y generalizing last with
  | nil => exact cuts
  | cons c rest ih =>
      rw [List.forall_mem_cons] at inside
      refine .kept (tokenAt_redacted inside.1 _ _) (ih inside.2 ?_)
      cases rest with
      | nil => exact cuts
      | cons d more =>
          rw [List.getLast?_cons_cons] at cuts
          rw [List.getLast?_eq_some_getLast (List.cons_ne_nil d more)] at cuts ⊢
          exact cuts

theorem plain_token {p body : Text} (member : p ∈ tokenPrefixes) (chars : ∀ c ∈ body, tokenCharOf p c = true) :
    '[' ∉ p ++ body := by
  have plain : ∀ p ∈ tokenPrefixes, '[' ∉ p := by decide
  have noChar : ∀ p ∈ tokenPrefixes, tokenCharOf p '[' = false := by decide
  intro inside
  rcases List.mem_append.mp inside with inPrefix | inBody
  · exact plain p member inPrefix
  · exact Bool.false_ne_true ((noChar p member).symm.trans (chars _ inBody))

/-- Where no token stands in the text, none stands in what is written. -/
theorem tokenAt_shown {c : Char} {rest : Text} (cuts : Cuts (some c) rest segments)
    (nothing : tokenAt (wordStart last) (c :: rest) = none) : tokenAt (wordStart last) (c :: shown segments) = none := by
  rw [← Option.not_isSome_iff_eq_none, Option.isSome_iff_exists]
  rintro ⟨⟨token, left⟩, found⟩
  obtain ⟨p, member, tail, eq, start, long, -, parts⟩ := tokenAt_some found
  have plain := @plain_token p (run p tail) member run_chars
  have whole : p ++ run p tail <+: c :: shown segments := by
    rw [eq]
    exact (List.prefix_append_right_inj p).mpr (run_isPrefix p tail)
  obtain ⟨d, more, split⟩ : ∃ d more, p ++ run p tail = d :: more := by
    have nonempty : ∀ p ∈ tokenPrefixes, p ≠ [] := by decide
    exact List.exists_cons_of_ne_nil (List.append_ne_nil_of_left_ne_nil (nonempty p member) _)
  rw [split, List.cons_prefix_cons] at whole
  rw [split, List.mem_cons, not_or] at plain
  obtain ⟨back, same⟩ := prefix_of_shown cuts whole.2 plain.2
  -- so the token, or a longer one, stood in the text
  have stood : c :: rest = p ++ (run p tail ++ back) := by
    rw [← List.append_assoc, split, List.cons_append, same, whole.1]
  have longer := @le_run p (run p tail) run_chars run_last back
  rw [start, stood] at nothing
  exact tokenAt_of_run member (long.trans longer) nothing

/-- What is written is cut into characters. -/
theorem cuts_shown (cuts : Cuts last text segments) :
    Cuts last (shown segments) ((shown segments).map .kept) := by
  induction cuts with
  | nil => exact .nil
  | token _ _ ih =>
      rw [shown_token, List.map_append]
      exact cuts_redacted (fun c member => member) ih
  | kept nothing cuts ih =>
      rw [shown_kept, List.map_cons]
      exact .kept (tokenAt_shown cuts nothing) ih

theorem shown_map_kept (text : Text) : shown (text.map .kept) = text := by
  induction text with
  | nil => rfl
  | cons c rest ih => rw [List.map_cons, shown_kept, ih]

theorem scrubTokens_idempotent (text : Text) : scrubTokens (scrubTokens text) = scrubTokens text := by
  obtain ⟨segments, cuts⟩ := exists_cuts none text
  rw [scrubTokens_cuts cuts, scrubTokens_cuts (cuts_shown cuts), shown_map_kept]

/-! ## A text without a token -/

/-- A known prefix with sixteen token characters behind it. -/
def Followed (text : Text) : Prop :=
  ∃ p ∈ tokenPrefixes, ∃ body back, text = p ++ (body ++ back) ∧ body.length = 16 ∧ ∀ c ∈ body, tokenCharOf p c = true

theorem followed_of_tokenAt {start : Bool} {token left : Text} (found : tokenAt start text = some (token, left)) :
    start = true ∧ Followed text := by
  obtain ⟨p, member, tail, rfl, isStart, long, -, parts⟩ := tokenAt_some found
  refine ⟨isStart, p, member, (run p tail).take 16, (run p tail).drop 16 ++ left, ?_, ?_, ?_⟩
  · rw [← List.append_assoc ((run p tail).take 16), List.take_append_drop, ← parts]
  · rw [List.length_take]
    omega
  · exact fun c inside => run_chars c (List.mem_of_mem_take inside)

theorem cuts_kept {front rest : Text} (whole : text = front ++ rest)
    (noToken : ∀ front rest, text = front ++ rest → wordStart front.getLast? = true → ¬ Followed rest) :
    Cuts front.getLast? rest (rest.map .kept) := by
  induction rest generalizing front with
  | nil => exact .nil
  | cons c rest ih =>
      refine .kept ?_ ?_
      · rw [← Option.not_isSome_iff_eq_none, Option.isSome_iff_exists]
        rintro ⟨⟨token, left⟩, found⟩
        obtain ⟨start, followed⟩ := followed_of_tokenAt found
        exact noToken front (c :: rest) whole start followed
      · have next := @ih (front ++ [c]) (by rw [whole, List.append_assoc]; rfl)
        rwa [List.getLast?_concat] at next

/-- A text where no prefix stands at the start of a word with sixteen token characters behind it stays as it
is. -/
theorem scrubTokens_eq_self
    (noToken : ∀ front rest, text = front ++ rest → wordStart front.getLast? = true → ¬ Followed rest) :
    scrubTokens text = text := by
  have cuts := @cuts_kept text [] text rfl noToken
  rw [scrubTokens_cuts cuts, shown_map_kept]

end Written

end OmarchyPool.Scrub
