/-
# OmarchyPool.Factory.Sizing -- the size a package's builds teach

The pool remembers a size for a package: raised after the engine killed one of its builds at its
memory limit (`afterOom`), one step lower after `decayAfter` builds in a row that held less than the
size under it gives (`afterBuild`).  Every report moves the package's row by compare-and-set
(`moveLearned`), three tries at most, beside any other report of the package.

`Lib.CompareAndSet` carries the interleaving: the row is what the reports that were applied lead to,
one after another.  What then holds of every row is proved of that order: the size stays within its
bounds (`serial_bounded`, `serial_community`), and a decay follows the builds it counts
(`serial_decay`).  A report that loses the compare three times is given up, and its raise with it.
-/
import Mathlib.Data.List.Induction
import OmarchyPool.Factory.Selection
import OmarchyPool.Lib.CompareAndSet

namespace OmarchyPool.Factory.Sizing

set_option autoImplicit false

open Lib

/-! ## The signed constants -/

def maxSize : Nat := 4
def communityMaxSize : Nat := 2
def buildPerSize : Nat := 2
def unitMemGb : Nat := 2
def egressMemMb : Nat := 64
def agentMemMb : Nat := 256

/-- Builds in a row that peaked lower before a remembered size decays one step. -/
def decayAfter : Nat := 5

/-! ## What the pool remembers -/

inductive Why where
  | oom
  | decay
  deriving DecidableEq, Repr

/-- The `learned_*` columns of a package. -/
structure Learned where
  size : Option Nat
  lower : Nat
  task : Option Nat
  why : Option Why
  changed : Option Int
  deriving DecidableEq, Repr

/-- Nothing learned: the columns' defaults. -/
def Learned.nothing : Learned := ⟨none, 0, none, none, none⟩

/-- The columns as a remembered size: what is not a whole size from 2 is nothing learned. -/
def learnedOf (row : Learned) : Learned :=
  { row with size := row.size.filter (2 ≤ ·), task := row.task.filter (1 ≤ ·) }

/-- The memory the size below gives a build's container, in MB. -/
def peakBelowMb (size : Nat) : Int :=
  ((size : Int) - 1) * buildPerSize * unitMemGb * 1024 - egressMemMb - agentMemMb

def learnCap (trust : Trust) (review : Bool) : Nat :=
  if trust = .community ∨ review then communityMaxSize else maxSize

/-- What a build's end says of its size: killed at its memory limit at size `ran`, or completed with
its memory peak. -/
inductive Report where
  | oom (ran : Nat) (trust : Trust) (review : Bool) (task : Nat)
  | build (peak : Nat) (task : Nat)
  deriving DecidableEq, Repr

def raised (was ran : Nat) (trust : Trust) (review : Bool) : Nat :=
  max was (min (learnCap trust review) (max 1 ran + 1))

def afterOom (cur : Learned) (ran : Nat) (trust : Trust) (review : Bool) (task : Nat) (now : Int) :
    Option Learned :=
  let was := cur.size.getD 1
  if raised was ran trust review = was then
    if cur.lower ≠ 0 then some { cur with lower := 0 } else none
  else some ⟨some (raised was ran trust review), 0, some task, some .oom, some now⟩

/-- One step lower: from 2 to nothing learned. -/
def stepDown (size : Nat) : Option Nat := if size > 2 then some (size - 1) else none

def afterBuild (cur : Learned) (peak task : Nat) (now : Int) : Option Learned :=
  match cur.size with
  | none => none
  | some size =>
    if peakBelowMb size ≤ peak then
      if cur.lower ≠ 0 then some { cur with lower := 0 } else none
    else if cur.lower + 1 < decayAfter then some { cur with lower := cur.lower + 1 }
    else some ⟨stepDown size, 0, some task, some .decay, some now⟩

/-- One report's step, on the columns it read. -/
def learn (report : Report) (now : Int) (row : Learned) : Option Learned :=
  match report with
  | .oom ran trust review task => afterOom (learnedOf row) ran trust review task now
  | .build peak task => afterBuild (learnedOf row) peak task now

/-- The columns the write compares: all but `learned_why`. -/
def compared (row : Learned) : Option Nat × Nat × Option Nat × Option Int :=
  (row.size, row.lower, row.task, row.changed)

/-- Reports of one package, each by `moveLearned`: read, compare-and-set, three tries. -/
def moveLearned (actions : List (CompareAndSet.Action Report Int)) :
    CompareAndSet.Cell Learned Report Int :=
  CompareAndSet.run compared learn 3 .nothing actions

/-- The reports one after another. -/
def inTurn (reports : List (Report × Int)) : Learned := CompareAndSet.serial learn .nothing reports

theorem inTurn_append (reports : List (Report × Int)) (e : Report × Int) :
    inTurn (reports ++ [e]) = CompareAndSet.after learn (inTurn reports) e :=
  CompareAndSet.serial_append learn .nothing reports e

/-! ## One report -/

/-- All a report can do to a remembered size. -/
theorem learn_cases {report : Report} {now : Int} {row next : Learned}
    (moves : learn report now row = some next) :
    (next.size = (learnedOf row).size ∧ next.lower = 0) ∨
    (∃ ran trust review task, report = .oom ran trust review task ∧
      (learnedOf row).size.getD 1 < raised ((learnedOf row).size.getD 1) ran trust review ∧
      next.size = some (raised ((learnedOf row).size.getD 1) ran trust review) ∧ next.lower = 0) ∨
    (∃ peak task size, report = .build peak task ∧ (learnedOf row).size = some size ∧
      (peak : Int) < peakBelowMb size ∧
      ((row.lower + 1 < decayAfter ∧ next.size = some size ∧ next.lower = row.lower + 1) ∨
        (decayAfter ≤ row.lower + 1 ∧ next.size = stepDown size ∧ next.lower = 0))) := by
  cases report with
  | oom ran trust review task =>
      simp only [learn, afterOom] at moves
      split_ifs at moves with stays counted
      · obtain rfl := Option.some.inj moves
        exact .inl ⟨rfl, rfl⟩
      · obtain rfl := Option.some.inj moves
        refine .inr (.inl ⟨ran, trust, review, task, rfl, ?_, rfl, rfl⟩)
        exact Nat.lt_of_le_of_ne (Nat.le_max_left _ _) (Ne.symm stays)
  | build peak task =>
      simp only [learn, afterBuild] at moves
      split at moves
      · cases moves
      · rename_i size sizeIs
        split_ifs at moves with above counted more
        · obtain rfl := Option.some.inj moves
          exact .inl ⟨rfl, rfl⟩
        · obtain rfl := Option.some.inj moves
          exact .inr (.inr ⟨peak, task, size, rfl, sizeIs, not_le.mp above, .inl ⟨more, sizeIs, rfl⟩⟩)
        · obtain rfl := Option.some.inj moves
          exact .inr (.inr ⟨peak, task, size, rfl, sizeIs, not_le.mp above, .inr ⟨not_lt.mp more, rfl, rfl⟩⟩)

/-- A report that changes nothing found no count to start over, or nothing learned. -/
theorem learn_none {report : Report} {now : Int} {row : Learned} {size : Nat}
    (stays : learn report now row = none) (sizeIs : (learnedOf row).size = some size) : row.lower = 0 := by
  by_contra counted
  revert stays
  cases report with
  | oom ran trust review task =>
      simp only [learn, afterOom]
      split_ifs with _ zero
      · nofun
      · exact absurd counted zero
      · nofun
  | build peak task =>
      simp only [learn, afterBuild, sizeIs]
      split_ifs with _ zero
      · nofun
      · exact absurd counted zero
      · nofun
      · nofun

/-- A remembered size is nothing or from 2 to the signed maximum. -/
def Bounded (most : Nat) (row : Learned) : Prop := ∀ size ∈ row.size, 2 ≤ size ∧ size ≤ most

theorem Bounded.learnedOf_size {most : Nat} {row : Learned} (bounded : Bounded most row) :
    (learnedOf row).size = row.size := by
  cases sizeIs : row.size with
  | none => simp [learnedOf, sizeIs]
  | some size => simp [learnedOf, sizeIs, (bounded size sizeIs).1]

theorem Bounded.getD {most : Nat} (one : 1 ≤ most) {row : Learned} (bounded : Bounded most row) :
    1 ≤ row.size.getD 1 ∧ row.size.getD 1 ≤ most := by
  cases sizeIs : row.size with
  | none => exact ⟨Nat.le_refl 1, one⟩
  | some size =>
      have := bounded size sizeIs
      exact ⟨by simpa using (by omega : 1 ≤ size), this.2⟩

/-- A report whose cap is within `most` keeps the size there. -/
theorem Bounded.learn {most : Nat} (one : 1 ≤ most) {row next : Learned} (bounded : Bounded most row)
    {report : Report} {now : Int}
    (capped : ∀ ran trust review task, report = .oom ran trust review task → learnCap trust review ≤ most)
    (moves : learn report now row = some next) : Bounded most next := by
  have same := bounded.learnedOf_size
  have within := bounded.getD one
  intro size here
  rcases learn_cases moves with ⟨sizeIs, -⟩ | ⟨ran, trust, review, task, rfl, more, sizeIs, -⟩ |
    ⟨peak, task, was, rfl, wasIs, -, ⟨-, sizeIs, -⟩ | ⟨-, sizeIs, -⟩⟩
  · rw [sizeIs, same] at here
    exact bounded size here
  · rw [same] at more sizeIs
    obtain rfl := Option.some.inj (sizeIs.symm.trans here)
    have cap := capped ran trust review task rfl
    refine ⟨by omega, ?_⟩
    exact max_le within.2 (le_trans (min_le_left _ _) cap)
  · rw [sizeIs] at here
    exact bounded size (by rw [← same, wasIs]; exact here)
  · rw [same] at wasIs
    have old := bounded was wasIs
    rw [sizeIs, stepDown] at here
    split_ifs at here with high
    · obtain rfl := Option.some.inj here
      omega
    · cases here

/-! ## The reports one after another -/

theorem after_cases (row : Learned) (e : Report × Int) :
    (learn e.1 e.2 row = none ∧ CompareAndSet.after learn row e = row) ∨
      learn e.1 e.2 row = some (CompareAndSet.after learn row e) := by
  unfold CompareAndSet.after
  cases moves : learn e.1 e.2 row with
  | none => exact .inl ⟨rfl, rfl⟩
  | some next => exact .inr rfl

theorem learnCap_le (trust : Trust) (review : Bool) : learnCap trust review ≤ maxSize := by
  unfold learnCap
  split_ifs <;> decide

theorem inTurn_within {most : Nat} (one : 1 ≤ most) (reports : List (Report × Int))
    (capped : ∀ e ∈ reports, ∀ ran trust review task, e.1 = .oom ran trust review task →
      learnCap trust review ≤ most) : Bounded most (inTurn reports) := by
  induction reports using List.reverseRecOn with
  | nil =>
      intro size here
      cases here
  | append_singleton reports e ih =>
      have bounded := ih fun x member => capped x (List.mem_append_left _ member)
      rw [inTurn_append]
      rcases after_cases (inTurn reports) e with ⟨-, stays⟩ | moves
      · rw [stays]
        exact bounded
      · exact bounded.learn one (capped e (by simp)) moves

theorem inTurn_bounded (reports : List (Report × Int)) : Bounded maxSize (inTurn reports) :=
  inTurn_within (by decide) reports fun _ _ _ trust review _ _ => learnCap_le trust review

/-- A build that peaked below what the size under `size` gives. -/
def PeaksBelow (size : Nat) (report : Report) : Prop :=
  ∃ peak task, report = .build peak task ∧ (peak : Int) < peakBelowMb size

/-- The last `n` reports all peaked below what the size under `size` gives. -/
def EndsBelow (size n : Nat) (reports : List (Report × Int)) : Prop :=
  ∃ before last, reports = before ++ last ∧ last.length = n ∧ ∀ e ∈ last, PeaksBelow size e.1

theorem EndsBelow.append {size n : Nat} {reports : List (Report × Int)} (ends : EndsBelow size n reports)
    {e : Report × Int} (below : PeaksBelow size e.1) : EndsBelow size (n + 1) (reports ++ [e]) := by
  obtain ⟨before, last, rfl, length, all⟩ := ends
  refine ⟨before, last ++ [e], by simp, by simp [length], ?_⟩
  intro x member
  rcases List.mem_append.mp member with old | new
  · exact all x old
  · obtain rfl := List.mem_singleton.mp new
    exact below

theorem EndsBelow.none (size : Nat) (reports : List (Report × Int)) : EndsBelow size 0 reports :=
  ⟨reports, [], by simp, rfl, nofun⟩

/-- The count is of the last reports, all lower peaks of the size it stands at. -/
def Counts (reports : List (Report × Int)) : Prop :=
  (inTurn reports).lower < decayAfter ∧
    ∀ size, (inTurn reports).size = some size → EndsBelow size (inTurn reports).lower reports

theorem inTurn_counts (reports : List (Report × Int)) : Counts reports := by
  induction reports using List.reverseRecOn with
  | nil => exact ⟨by decide, fun size here => nomatch here⟩
  | append_singleton reports e ih =>
      have same := (inTurn_bounded reports).learnedOf_size
      rw [Counts, inTurn_append]
      rcases after_cases (inTurn reports) e with ⟨none, stays⟩ | moves
      · rw [stays]
        refine ⟨ih.1, fun size here => ?_⟩
        rw [learn_none none (same.trans here)]
        exact .none size _
      · generalize CompareAndSet.after learn (inTurn reports) e = next at moves ⊢
        rcases learn_cases moves with ⟨-, lower⟩ | ⟨_, _, _, _, _, _, _, lower⟩ |
          ⟨peak, task, size, report, sizeIs, below, ⟨more, nextIs, lower⟩ | ⟨_, _, lower⟩⟩
        · rw [lower]
          exact ⟨by decide, fun size _ => .none size _⟩
        · rw [lower]
          exact ⟨by decide, fun size _ => .none size _⟩
        · rw [lower]
          refine ⟨more, fun s here => ?_⟩
          obtain rfl : size = s := Option.some.inj (nextIs.symm.trans here)
          exact (ih.2 size (same.symm.trans sizeIs)).append ⟨peak, task, report, below⟩
        · rw [lower]
          exact ⟨by decide, fun size _ => .none size _⟩

/-- A size that decays was left by `decayAfter` reports in a row, each a build that peaked below it. -/
theorem inTurn_decay {reports : List (Report × Int)} {e : Report × Int} {size : Nat}
    (was : (inTurn reports).size = some size) (less : (inTurn (reports ++ [e])).size.getD 1 < size) :
    EndsBelow size decayAfter (reports ++ [e]) := by
  have same := (inTurn_bounded reports).learnedOf_size.trans was
  rw [inTurn_append] at less
  rcases after_cases (inTurn reports) e with ⟨-, stays⟩ | moves
  · rw [stays, was] at less
    exact absurd less (lt_irrefl size)
  · generalize CompareAndSet.after learn (inTurn reports) e = next at moves less
    rcases learn_cases moves with ⟨sizeIs, -⟩ | ⟨_, _, _, _, _, more, sizeIs, -⟩ |
      ⟨peak, task, s, report, sIs, below, ⟨-, sizeIs, -⟩ | ⟨full, sizeIs, -⟩⟩
    · rw [sizeIs, same] at less
      exact absurd less (lt_irrefl size)
    · rw [same] at more sizeIs
      rw [sizeIs] at less
      exact absurd less (by simpa using more.le)
    · obtain rfl : size = s := Option.some.inj (same.symm.trans sIs)
      rw [sizeIs] at less
      exact absurd less (lt_irrefl size)
    · obtain rfl : size = s := Option.some.inj (same.symm.trans sIs)
      obtain ⟨few, counted⟩ := inTurn_counts reports
      have enough := (counted size was).append (e := e) ⟨peak, task, report, below⟩
      rwa [show (inTurn reports).lower + 1 = decayAfter by omega] at enough

/-! ## Reports at once -/

theorem eq_of_compared {a b : Learned} (same : compared a = compared b) : a = { b with why := a.why } := by
  obtain ⟨size, lower, task, why, changed⟩ := a
  simp only [compared, Prod.mk.injEq] at same
  obtain ⟨rfl, rfl, rfl, rfl⟩ := same
  rfl

/-- What a report does does not depend on why the size last changed. -/
theorem learn_compared {a b : Learned} (report : Report) (now : Int) (same : compared a = compared b) :
    Option.Rel (fun x y => compared x = compared y) (learn report now a) (learn report now b) := by
  rw [eq_of_compared same]
  obtain ⟨size, lower, task, why, changed⟩ := b
  simp only [learn, learnedOf]
  generalize size.filter _ = size
  generalize task.filter _ = task
  cases report with
  | oom ran trust review task' =>
      simp only [afterOom]
      by_cases stays : raised (size.getD 1) ran trust review = size.getD 1
      · by_cases counted : lower ≠ 0
        · rw [if_pos stays, if_pos stays, if_pos counted, if_pos counted]
          exact .some rfl
        · rw [if_pos stays, if_pos stays, if_neg counted, if_neg counted]
          exact .none
      · rw [if_neg stays, if_neg stays]
        exact .some rfl
  | build peak task' =>
      cases size with
      | none => exact .none
      | some size =>
          simp only [afterBuild]
          by_cases above : peakBelowMb size ≤ peak
          · by_cases counted : lower ≠ 0
            · rw [if_pos above, if_pos above, if_pos counted, if_pos counted]
              exact .some rfl
            · rw [if_pos above, if_pos above, if_neg counted, if_neg counted]
              exact .none
          · by_cases more : lower + 1 < decayAfter
            · rw [if_neg above, if_neg above, if_pos more, if_pos more]
              exact .some rfl
            · rw [if_neg above, if_neg above, if_neg more, if_neg more]
              exact .some rfl

theorem serial_compared : CompareAndSet.Serial compared learn (fun _ _ => True) (fun _ => True)
    (fun x y => compared x = compared y) where
  equivalence := ⟨fun _ => rfl, Eq.symm, Eq.trans⟩
  agree _ _ same := same
  follow := learn_compared
  keeps _ _ _ := trivial

def Report.task : Report → Nat
  | .oom _ _ _ task => task
  | .build _ task => task

/-- What a report that changes the size says it changed it for. -/
def Report.why : Report → Why
  | .oom _ _ _ _ => .oom
  | .build _ _ => .decay

/-- The row's `why` is the one of its task and time. -/
def Sourced (whyAt : Nat → Int → Why) (row : Learned) : Prop :=
  row.task.all (1 ≤ ·) ∧ row.why = row.task.bind fun task => row.changed.map (whyAt task)

theorem Sourced.learn {whyAt : Nat → Int → Why} {row next : Learned} {report : Report} {now : Int}
    (source : 1 ≤ report.task ∧ report.why = whyAt report.task now) (sourced : Sourced whyAt row)
    (moves : learn report now row = some next) : Sourced whyAt next := by
  obtain ⟨size, lower, task, why, changed⟩ := row
  have kept : task.filter (1 ≤ ·) = task := by
    cases task with
    | none => rfl
    | some task => simpa [Sourced] using sourced.1
  cases report with
  | oom ran trust review task' =>
      simp only [Sizing.learn, afterOom, learnedOf, kept] at moves
      split_ifs at moves with stays counted
      · obtain rfl := Option.some.inj moves
        exact sourced
      · obtain rfl := Option.some.inj moves
        exact ⟨decide_eq_true source.1, congrArg some source.2⟩
  | build peak task' =>
      simp only [Sizing.learn, afterBuild, learnedOf, kept] at moves
      split at moves
      · cases moves
      · split_ifs at moves with above counted more
        · obtain rfl := Option.some.inj moves
          exact sourced
        · obtain rfl := Option.some.inj moves
          exact sourced
        · obtain rfl := Option.some.inj moves
          exact ⟨decide_eq_true source.1, congrArg some source.2⟩

theorem serial_sourced (whyAt : Nat → Int → Why) :
    CompareAndSet.Serial compared learn
      (fun report now => 1 ≤ report.task ∧ report.why = whyAt report.task now) (Sourced whyAt) Eq where
  equivalence := ⟨fun _ => rfl, Eq.symm, Eq.trans⟩
  agree := by
    intro a b sourcedA sourcedB same
    have whole := eq_of_compared same
    simp only [compared, Prod.mk.injEq] at same
    obtain ⟨-, -, task, changed⟩ := same
    have why : a.why = b.why := by rw [sourcedA.2, sourcedB.2, task, changed]
    rw [whole, why]
  follow := by
    rintro a _ report now rfl
    cases learn report now a with
    | none => exact .none
    | some next => exact .some rfl
  keeps := fun source sourced moves => sourced.learn source moves

/-- Reports of one package at once, in any interleaving of their statements.

Every report is applied once, given up once or in flight, and one is given up only after three writes
of others since its call began.  The row is what the applied reports lead to one after another in the
order they were applied in: in all the columns the write compares, and in its `why` too where the
reports of one task at one time are of one kind.  The size is nothing learned or from 2 to the signed
maximum, the contributors' while every raise came from a contributor's build or its copy; and a decay
in that order ends `decayAfter` builds in a row that peaked below what the size under it gives. -/
theorem learned_in_turn (actions : List (CompareAndSet.Action Report Int)) :
    (moveLearned actions).reports.Perm (CompareAndSet.came actions) ∧
    (∀ c ∈ (moveLearned actions).givenUp,
      c.begun + 3 ≤ c.seen ∧ c.seen ≤ (moveLearned actions).writes) ∧
    compared (moveLearned actions).row = compared (inTurn (moveLearned actions).applied) ∧
    (∀ whyAt : Nat → Int → Why,
      (∀ e ∈ (moveLearned actions).applied, 1 ≤ e.1.task ∧ e.1.why = whyAt e.1.task e.2) →
      (moveLearned actions).row = inTurn (moveLearned actions).applied) ∧
    Bounded maxSize (moveLearned actions).row ∧
    ((∀ e ∈ (moveLearned actions).applied, ∀ ran trust review task,
        e.1 = .oom ran trust review task → trust = .community ∨ review = true) →
      Bounded communityMaxSize (moveLearned actions).row) ∧
    (∀ before e, before ++ [e] <+: (moveLearned actions).applied → ∀ size,
      (inTurn before).size = some size → (inTurn (before ++ [e])).size.getD 1 < size →
      EndsBelow size decayAfter (before ++ [e])) := by
  have same : compared (moveLearned actions).row = compared (inTurn (moveLearned actions).applied) :=
    CompareAndSet.run_serial serial_compared trivial actions fun _ _ => trivial
  have size : (moveLearned actions).row.size = (inTurn (moveLearned actions).applied).size :=
    congrArg (·.1) same
  refine ⟨CompareAndSet.run_reports Learned.nothing actions,
    CompareAndSet.run_givenUp Learned.nothing actions, same, ?_, ?_, ?_, ?_⟩
  · intro whyAt sources
    exact CompareAndSet.run_serial (serial_sourced whyAt) ⟨rfl, rfl⟩ actions sources
  · intro s here
    exact inTurn_bounded _ s (by rw [← size]; exact here)
  · intro community s here
    refine inTurn_within (by decide) _ ?_ s (by rw [← size]; exact here)
    intro e member ran trust review task report
    rw [learnCap, if_pos (community e member ran trust review task report)]
  · intro before e _ s was less
    exact inTurn_decay was less

/-! ## A raise that is given up -/

/-- Without `decayAfter` builds among the reports no size is lost. -/
theorem size_le_append {reports : List (Report × Int)} {e : Report × Int}
    (few : (reports ++ [e]).length < decayAfter) :
    (inTurn reports).size.getD 1 ≤ (inTurn (reports ++ [e])).size.getD 1 := by
  by_contra less
  have bounded := inTurn_bounded (reports ++ [e])
  cases was : (inTurn reports).size with
  | none =>
      rw [was] at less
      exact less (bounded.getD (by decide)).1
  | some size =>
      rw [was] at less
      obtain ⟨before, last, split, length, -⟩ := inTurn_decay was (not_le.mp less)
      rw [split, List.length_append, length] at few
      omega

/-- After an out-of-memory report the size is at least the one it raises to. -/
theorem after_oom_size {row : Learned} (same : (learnedOf row).size = row.size) (ran task : Nat)
    (trust : Trust) (review : Bool) (now : Int) :
    (CompareAndSet.after learn row (.oom ran trust review task, now)).size.getD 1 =
      raised (row.size.getD 1) ran trust review := by
  simp only [CompareAndSet.after, learn, afterOom, same]
  by_cases stays : raised (row.size.getD 1) ran trust review = row.size.getD 1
  · rw [if_pos stays, stays]
    split_ifs
    · rfl
    · rfl
  · rw [if_neg stays]
    rfl

/-- A raise is remembered by every few reports it is among. -/
theorem raise_remembered {reports : List (Report × Int)} (few : reports.length < decayAfter)
    {ran task : Nat} {now : Int} (member : (Report.oom ran .project false task, now) ∈ reports) :
    min maxSize (max 1 ran + 1) ≤ (inTurn reports).size.getD 1 := by
  induction reports using List.reverseRecOn with
  | nil => cases member
  | append_singleton reports e ih =>
      rcases List.mem_append.mp member with old | new
      · have fewer : reports.length < decayAfter := by
          rw [List.length_append] at few
          omega
        exact le_trans (ih fewer old) (size_le_append few)
      · obtain rfl := List.mem_singleton.mp new
        have same := (inTurn_bounded reports).learnedOf_size
        rw [inTurn_append, after_oom_size same]
        exact le_max_right _ _

/-- Three calls write between the reads and the writes of a fourth, whose raise is given up. -/
def overtaken : List (CompareAndSet.Action Report Int) :=
  [.start (.oom 3 .project false 1), .start (.oom 1 .project false 2), .start (.oom 2 .project false 3),
   .start (.build 100 4),
   .turn 0 0, .turn 1 1, .turn 1 2, .turn 0 3,
   .turn 0 4, .turn 1 5, .turn 1 6, .turn 0 7,
   .turn 0 8, .turn 1 9, .turn 1 10, .turn 0 11]

/-- Four builds of one package end at once, and the largest raise is in no order of their reports. -/
theorem raise_given_up :
    ¬ ∀ actions : List (CompareAndSet.Action Report Int), (moveLearned actions).calls = [] →
      ∃ order : List (Report × Int), (order.map (·.1)).Perm (CompareAndSet.came actions) ∧
        (moveLearned actions).row.size = (inTurn order).size := by
  intro serialisable
  obtain ⟨order, reports, size⟩ := serialisable overtaken (by decide)
  have three : (moveLearned overtaken).row.size = some 3 := by decide
  have came : CompareAndSet.came overtaken = [.oom 3 .project false 1, .oom 1 .project false 2,
      .oom 2 .project false 3, .build 100 4] := by decide
  rw [came] at reports
  have few : order.length < decayAfter := by
    have := reports.length_eq
    rw [List.length_map] at this
    rw [this]
    decide
  obtain ⟨e, member, report⟩ := List.mem_map.mp (reports.mem_iff.mpr (List.mem_cons_self ..))
  obtain ⟨_, now⟩ := e
  obtain rfl := report
  have four := raise_remembered few member
  rw [← size, three] at four
  exact absurd four (by decide)

end OmarchyPool.Factory.Sizing
