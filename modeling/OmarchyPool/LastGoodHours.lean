/-
# OmarchyPool.LastGoodHours -- six hours on the release before

A host whose guard reverted the pool's release claims on its last-good for `lastGoodHours` after the
pool first heard of the revert.  `revertAfter` keeps, over a host's reports, the release it reverted
and since when; `lastGoodUntil` reads both at a claim.

The fold keeps one release and one time.  `Restarts` is the report that starts the hours again: it
says the release was rolled back, an earlier one said so, and the row no longer names it.  While no
report does (`NeverRestarts`), the time kept is the first report's (`fold_since`), and a claim is let
through within the hours of it.
-/
import Mathlib.Data.List.Induction
import OmarchyPool.Lib.Decimal

namespace OmarchyPool.LastGoodHours

set_option autoImplicit false

/-! ## Release tags -/

abbrev Tag := Nat × Nat × Nat

/-- What JavaScript's `trim` takes off. -/
def isWhite (c : Char) : Bool :=
  (9 ≤ c.toNat && c.toNat ≤ 13) || (0x2000 ≤ c.toNat && c.toNat ≤ 0x200a) ||
    [32, 0xa0, 0x1680, 0x2028, 0x2029, 0x202f, 0x205f, 0x3000, 0xfeff].contains c.toNat

def trim (l : List Char) : List Char := ((l.dropWhile isWhite).reverse.dropWhile isWhite).reverse

/-- `Number` of a run of digits: from 2^53 on the nearest binary64, of two the even one.  `Infinity`
is only compared here, with others of its kind: 2^1024. -/
def rounded (n : Nat) : Nat :=
  if n < 2 ^ 53 then n else
  let ulp := 2 ^ (n.log2 - 52)
  let low := n / ulp * ulp
  let down := 2 * (n - low) < ulp ∨ 2 * (n - low) = ulp ∧ n / ulp % 2 = 0
  min (if down then low else low + ulp) (2 ^ 1024)

/-- `(\d+)`, the longest run of digits. -/
def number (l : List Char) : Option (Nat × List Char) :=
  match l.takeWhile Char.isDigit with
  | [] => none
  | ds => some (rounded (Lib.value (fun c => c.toNat - '0'.toNat) 10 ds), l.dropWhile Char.isDigit)

def dot : List Char → Option (List Char)
  | '.' :: rest => some rest
  | _ => none

/-- `(\d+)\.(\d+)\.(\d+)$` -/
def triple (l : List Char) : Option Tag := do
  let (a, l) ← number l
  let l ← dot l
  let (b, l) ← number l
  let l ← dot l
  let (c, l) ← number l
  if l = [] then some (a, b, c) else none

/-- `v0.0.177` is 0, 0, 177; anything else (dev, container, unknown) is none. -/
def parseTag (v : Option String) : Option Tag :=
  match trim (v.getD "").toList with
  | 'v' :: rest => triple rest
  | l => triple l

def compareTags (a b : Tag) : Ordering :=
  if a.1 ≠ b.1 then (if a.1 < b.1 then .lt else .gt)
  else if a.2.1 ≠ b.2.1 then (if a.2.1 < b.2.1 then .lt else .gt)
  else if a.2.2 ≠ b.2.2 then (if a.2.2 < b.2.2 then .lt else .gt)
  else .eq

/-- A report's own reading, `/^v\d+\.\d+\.\d+$/`: the string itself, no blanks and the `v` there. -/
def tag (v : Option String) : Option String :=
  match v.map String.toList with
  | some ('v' :: rest) => if (triple rest).isSome then v else none
  | _ => none

theorem compareTags_eq_iff (a b : Tag) : compareTags a b = .eq ↔ a = b := by
  obtain ⟨a₁, a₂, a₃⟩ := a
  obtain ⟨b₁, b₂, b₃⟩ := b
  simp only [compareTags, Prod.mk.injEq]
  split_ifs <;> simp_all

/-! ## A claim on last-good -/

/-- The releases the signed manifest retires. -/
structure ReleasePolicy where
  minRelease : String
  revoked : List String

def isRevoked (v : Option String) (policy : ReleasePolicy) : Bool :=
  match parseTag v with
  | none => false
  | some t => policy.revoked.any fun r =>
      match parseTag (some r) with
      | none => false
      | some x => compareTags x t = .eq

def lastGoodHours : Nat := 6

/-- `LAST_GOOD_HOURS * 3600e3` -/
def lastGoodMs : Int := lastGoodHours * 3600000

/-- What a host's reports say of a revert: the release it reverted, since when the pool knows it, the
release it applied. -/
structure Reverted where
  from' : String
  since : Option Int
  applied : Option String

def lastGoodUntil (r : Option Reverted) (yours : Option String) (latest : String) (now : Int)
    (policy : ReleasePolicy) : Option Int :=
  match r with
  | none => none
  | some r =>
    match parseTag (some r.from'), parseTag (some latest), parseTag yours, parseTag r.applied with
    | some reverted, some p, some w, some applied =>
      if compareTags reverted p ≠ .eq then none
      -- on its last-good: the release its agent applied, which is behind the pool's
      else if compareTags w applied ≠ .eq ∨ compareTags w p ≠ .lt then none
      else if (parseTag (some policy.minRelease)).any (fun min => compareTags w min = .lt) ∨
          isRevoked yours policy then none
      else
        match r.since with
        | none => none
        | some since =>
          if now < since + lastGoodMs then some (since + lastGoodMs) else none
    | _, _, _, _ => none

/-! ## A host's reports -/

/-- The fields of a report the fold reads, a field of another type as `none`. -/
structure Report where
  outcome : Option String
  roundFrom : Option String
  target : Option String
  applied : Option String
  quarantine : List (Option String)

/-- `rolled_back_from` and `rolled_back_at` of the host's row. -/
structure Revert where
  from' : Option String
  since : Option Int
  deriving DecidableEq

def Revert.none : Revert := ⟨.none, .none⟩

/-- The release a report's round says it rolled back from. -/
def Report.rolledBack (report : Report) : Option String :=
  if report.outcome = some "rolled-back" then tag report.roundFrom else none

/-- The report still holds the release back: in quarantine, of which sixteen entries are read, or as
the rollout's target, and has not applied it or a later one. -/
def Report.holds (report : Report) (release : String) (was : Tag) : Bool :=
  ((report.quarantine.take 16).any (· = some release) || report.target = some release) &&
    !(parseTag (tag report.applied)).any fun applied => compareTags applied was ≠ .lt

def keptFrom (prev : Revert) (report : Report) : Option String :=
  match prev.from', parseTag prev.from' with
  | some release, some was => if report.holds release was then some release else none
  | _, _ => none

def revertAfter (prev : Revert) (report : Report) (now : Int) : Revert :=
  let reverted := report.rolledBack.or (keptFrom prev report)
  { from' := reverted
    since :=
      if reverted = none then none
      else if reverted = prev.from' ∧ prev.since.isSome then prev.since
      else some now }

/-- The row after a host's reports, each with the time the pool took it at. -/
def fold (reports : List (Int × Report)) : Revert :=
  reports.foldl (fun prev r => revertAfter prev r.2 r.1) .none

/-- What the row says of a revert, beside the release the host's last report applied. -/
def revertedOf (row : Revert) (applied : Option String) : Option Reverted :=
  row.from'.map fun release => ⟨release, row.since, applied⟩

/-- A later report names the release the last one left in the row, or one its own round rolled back. -/
theorem revertAfter_from {prev : Revert} {report : Report} {now : Int} {release : String}
    (named : (revertAfter prev report now).from' = some release) :
    report.rolledBack = some release ∨ report.rolledBack = none ∧ prev.from' = some release := by
  simp only [revertAfter] at named
  cases said : report.rolledBack with
  | some s =>
      rw [said, Option.some_or] at named
      exact .inl named
  | none =>
      rw [said, Option.none_or, keptFrom] at named
      split at named
      · rename_i kept _ was _
        split at named
        · exact .inr ⟨rfl, was.trans named⟩
        · cases named
      · cases named

/-- The time stays while the release stays. -/
theorem revertAfter_since_kept {prev : Revert} {report : Report} {now first : Int} {release : String}
    (named : (revertAfter prev report now).from' = some release) (was : prev.from' = some release)
    (since : prev.since = some first) : (revertAfter prev report now).since = some first := by
  simp only [revertAfter] at named ⊢
  rw [named, was, since]
  simp

/-- A release the row did not name is known since the report that names it. -/
theorem revertAfter_since_new {prev : Revert} {report : Report} {now : Int} {release : String}
    (named : (revertAfter prev report now).from' = some release) (was : prev.from' ≠ some release) :
    (revertAfter prev report now).since = some now := by
  simp only [revertAfter] at named ⊢
  rw [named, if_neg (by simp), if_neg]
  rintro ⟨same, _⟩
  exact was same.symm

/-! ## The first report of a revert -/

/-- The report says `latest` was rolled back, in whichever spelling. -/
def Report.tells (report : Report) (latest : String) : Bool :=
  report.rolledBack.any fun release => parseTag (some release) = parseTag (some latest)

/-- When the pool first heard that `latest` was rolled back. -/
def firstSaid (latest : String) (reports : List (Int × Report)) : Option Int :=
  (reports.find? fun r => r.2.tells latest).map (·.1)

/-- The report starts the hours of `latest` again: an earlier one said it was rolled back, this one
says so too, and the row names another release, another spelling of it or none. -/
def Restarts (latest : String) (before : List (Int × Report)) (report : Report) : Prop :=
  report.tells latest ∧ (∃ r ∈ before, r.2.tells latest) ∧ (fold before).from' ≠ report.rolledBack

def NeverRestarts (latest : String) (reports : List (Int × Report)) : Prop :=
  ∀ before r, before ++ [r] <+: reports → ¬ Restarts latest before r.2

theorem NeverRestarts.of_prefix {latest : String} {before reports : List (Int × Report)}
    (never : NeverRestarts latest reports) (here : before <+: reports) : NeverRestarts latest before :=
  fun earlier r there => never earlier r (there.trans here)

instance (latest : String) (before : List (Int × Report)) (report : Report) :
    Decidable (Restarts latest before report) :=
  inferInstanceAs (Decidable (_ ∧ _ ∧ _))

theorem NeverRestarts.nil (latest : String) : NeverRestarts latest [] := by
  intro before r here
  simp at here

theorem NeverRestarts.append {latest : String} {reports : List (Int × Report)} {r : Int × Report}
    (never : NeverRestarts latest reports) (same : ¬ Restarts latest reports r.2) :
    NeverRestarts latest (reports ++ [r]) := by
  intro before e here
  rcases List.prefix_concat_iff.mp here with whole | earlier
  · obtain ⟨rfl, last⟩ := List.append_inj' whole rfl
    obtain rfl := List.singleton_inj.mp last
    exact same
  · exact never before e earlier

theorem fold_append (reports : List (Int × Report)) (r : Int × Report) :
    fold (reports ++ [r]) = revertAfter (fold reports) r.2 r.1 := by
  simp only [fold, List.foldl_append, List.foldl_cons, List.foldl_nil]

theorem firstSaid_append_of_some {latest : String} {reports : List (Int × Report)} {first : Int}
    (said : firstSaid latest reports = some first) (r : Int × Report) :
    firstSaid latest (reports ++ [r]) = some first := by
  simp only [firstSaid, Option.map_eq_some_iff] at said ⊢
  obtain ⟨e, found, time⟩ := said
  exact ⟨e, by rw [List.find?_append, found, Option.some_or], time⟩

theorem firstSaid_append_of_unsaid {latest : String} {reports : List (Int × Report)}
    (unsaid : ∀ e ∈ reports, e.2.tells latest = false) {r : Int × Report}
    (tells : r.2.tells latest = true) : firstSaid latest (reports ++ [r]) = some r.1 := by
  have nothing : reports.find? (fun e => e.2.tells latest) = none := by
    rw [List.find?_eq_none]
    intro e mem
    simp [unsaid e mem]
  simp [firstSaid, List.find?_append, nothing, tells]

/-- The row keeps the time of the first report that said the release was rolled back. -/
def KeepsFirst (latest : String) (reports : List (Int × Report)) : Prop :=
  ∀ release, (fold reports).from' = some release → parseTag (some release) = parseTag (some latest) →
    ∃ first, firstSaid latest reports = some first ∧ (fold reports).since = some first

theorem KeepsFirst.append {latest : String} {reports : List (Int × Report)} {r : Int × Report}
    (keeps : KeepsFirst latest reports) (same : ¬ Restarts latest reports r.2) :
    KeepsFirst latest (reports ++ [r]) := by
  intro release named isLatest
  rw [fold_append] at named ⊢
  rcases revertAfter_from named with said | ⟨_, was⟩
  · have tells : r.2.tells latest = true := by simp [Report.tells, said, isLatest]
    by_cases earlier : ∃ e ∈ reports, e.2.tells latest
    · -- said before: the row still names it, so its time stands
      have was : (fold reports).from' = some release := by
        by_contra other
        exact same ⟨tells, earlier, by rw [said]; exact other⟩
      obtain ⟨first, firstIs, since⟩ := keeps release was isLatest
      exact ⟨first, firstSaid_append_of_some firstIs r, revertAfter_since_kept named was since⟩
    · have unsaid : ∀ e ∈ reports, e.2.tells latest = false := by
        intro e mem
        by_contra said
        exact earlier ⟨e, mem, by simpa using said⟩
      have other : (fold reports).from' ≠ some release := by
        intro was
        obtain ⟨first, firstIs, -⟩ := keeps release was isLatest
        simp only [firstSaid, Option.map_eq_some_iff] at firstIs
        obtain ⟨e, found, -⟩ := firstIs
        have saidE := List.find?_some found
        rw [unsaid e (List.mem_of_find?_eq_some found)] at saidE
        cases saidE
      exact ⟨r.1, firstSaid_append_of_unsaid unsaid tells, revertAfter_since_new named other⟩
  · obtain ⟨first, firstIs, since⟩ := keeps release was isLatest
    exact ⟨first, firstSaid_append_of_some firstIs r, revertAfter_since_kept named was since⟩

theorem fold_since {latest : String} {reports : List (Int × Report)}
    (never : NeverRestarts latest reports) : KeepsFirst latest reports := by
  induction reports using List.reverseRecOn with
  | nil =>
      intro release named
      cases named
  | append_singleton reports r ih =>
      exact (ih (never.of_prefix (List.prefix_append reports [r]))).append
        (never reports r (List.prefix_refl _))

/-- A claim is let through on last-good for the pool's own release, before the hours the row counts. -/
theorem lastGoodUntil_some {r : Reverted} {yours : Option String} {latest : String} {now ends : Int}
    {policy : ReleasePolicy} (through : lastGoodUntil (some r) yours latest now policy = some ends) :
    parseTag (some r.from') = parseTag (some latest) ∧
      ∃ since, r.since = some since ∧ now < since + lastGoodMs := by
  simp only [lastGoodUntil] at through
  split at through
  · rename_i reverted p w applied revertedIs pIs _ _
    split_ifs at through with other behind retired
    split at through
    · cases through
    · rename_i since sinceIs
      split_ifs at through with within
      refine ⟨?_, since, sinceIs, within⟩
      rw [revertedIs, pIs, (compareTags_eq_iff reverted p).mp (not_not.mp other)]
  · cases through

/-- Six hours on last-good, counted from the first report of the revert: in a run of reports of which
none starts the hours again, every claim let through after any of them comes within the hours of the
first that said the pool's release was rolled back. -/
theorem last_good_within_hours (latest : String) (reports : List (Int × Report))
    (never : NeverRestarts latest reports) (before : List (Int × Report)) (reached : before <+: reports)
    (applied yours : Option String) (policy : ReleasePolicy) (now : Int)
    (through : (lastGoodUntil (revertedOf (fold before) applied) yours latest now policy).isSome) :
    ∃ first, firstSaid latest before = some first ∧ now < first + lastGoodMs := by
  obtain ⟨ends, through⟩ := Option.isSome_iff_exists.mp through
  unfold revertedOf at through
  cases named : (fold before).from' with
  | none =>
      rw [named, Option.map_none] at through
      cases through
  | some release =>
      rw [named, Option.map_some] at through
      obtain ⟨isLatest, since, sinceIs, within⟩ := lastGoodUntil_some through
      obtain ⟨first, firstIs, firstSince⟩ := fold_since (never.of_prefix reached) release named isLatest
      obtain rfl : since = first := Option.some.inj (sinceIs.symm.trans firstSince)
      exact ⟨since, firstIs, within⟩

/-- The pool's release reverted at the start, held in quarantine, tried again and reverted again five
hours later. -/
def revertedTwice : List (Int × Report) :=
  [(0, ⟨some "rolled-back", some "v1.20.2", none, some "v1.20.1", [some "v1.20.2"]⟩),
   (7200000, ⟨some "held", none, none, some "v1.20.1", [some "v1.20.2"]⟩),
   (18000000, ⟨some "rolled-back", some "v1.20.2", none, some "v1.20.1", [some "v1.20.2"]⟩)]

theorem last_good_within_hours_revertedTwice :
    ∃ first, firstSaid "v1.20.2" revertedTwice = some first ∧ (19800000 : Int) < first + lastGoodMs :=
  last_good_within_hours "v1.20.2" revertedTwice
    ((((NeverRestarts.nil _).append (by decide)).append (by decide)).append
      (by decide))
    revertedTwice (List.prefix_refl _) (some "v1.20.1") (some "v1.20.1") ⟨"v1.0.0", []⟩ 19800000
    (by decide)

/-- The host applied `latest` or a later release. -/
def Report.reached (report : Report) (latest : String) : Bool :=
  match parseTag (tag report.applied), parseTag (some latest) with
  | some applied, some p => compareTags applied p ≠ .lt
  | _, _ => false

/-- An Update lifts the quarantine, a report falls before the round that takes the release up again,
and that round reverts it too. -/
def liftedBetween : List (Int × Report) :=
  [(0, ⟨some "rolled-back", some "v1.20.2", none, some "v1.20.1", [some "v1.20.2"]⟩),
   (18000000, ⟨some "no-change", none, none, some "v1.20.1", []⟩),
   (19800000, ⟨some "rolled-back", some "v1.20.2", none, some "v1.20.1", [some "v1.20.2"]⟩)]

/-- Eleven hours after the first report the host still claims on its last-good. -/
theorem hours_start_again :
    ¬ ∀ (latest : String) (reports : List (Int × Report)),
      reports.Pairwise (fun a b => a.1 ≤ b.1) → (∀ r ∈ reports, r.2.reached latest = false) →
      ∀ (applied yours : Option String) (policy : ReleasePolicy) (now : Int),
        (lastGoodUntil (revertedOf (fold reports) applied) yours latest now policy).isSome →
        ∃ first, firstSaid latest reports = some first ∧ now < first + lastGoodMs := by
  intro within
  obtain ⟨first, firstIs, before⟩ := within "v1.20.2" liftedBetween (by decide)
    (by decide) (some "v1.20.1") (some "v1.20.1") ⟨"v1.0.0", []⟩ 39600000 (by decide)
  have atStart : firstSaid "v1.20.2" liftedBetween = some 0 := by decide
  obtain rfl : 0 = first := Option.some.inj (atStart.symm.trans firstIs)
  exact absurd before (by decide)

end OmarchyPool.LastGoodHours
