/-
# OmarchyPool.PkgStore.Failure -- what `commit` leaves when a step of it fails

`commit` runs the transaction and, when a step of the run returns an error, rolls the journal back
itself, deletes the record and says so.  A failing call or database write has no effect of its own;
the errors of the cleaning up are only warned of.

`commit_rolled_back`: a rolled-back transaction leaves the store as it was, wherever the error came, as
long as its operations stand apart and nothing stood at the names they need,
up to the deletion of the record, which is the last step of a run that is already committed.  An error
there is answered by the same rollback: the entries the transaction created are removed, what it replaced
stays replaced, and the tables are the committed ones (`undeleted_record`).
-/
import OmarchyPool.PkgStore.Atomic

namespace OmarchyPool.PkgStore

open OmarchyPool.Lib

set_option autoImplicit false

/-- The step of `commit` that returns an error. -/
inductive Fault where
  /-- Before the record is written: a package to remove is not installed, or a database write. -/
  | start
  | stage
  | plan
  | journal
  /-- After so many calls of the applying. -/
  | apply (calls : Nat)
  | commitState
  /-- Any calls of the cleaning up. -/
  | cleanup
  | deleteRecord
deriving DecidableEq, Repr

/-- The journal has the plan's operations: a rollback goes over them. -/
def Fault.journaled : Fault → Bool
  | .start | .stage | .plan => false
  | _ => true

inductive Outcome where
  | success
  | rolledBack
  | rollbackFailed
  /-- Another error, as it is. -/
  | failed
deriving DecidableEq, Repr

/-- Cleaning up, whichever of its calls fail. -/
def Cleans (ops : List JournalEntry) (pruneDirs : List String) (fs fs' : Files) : Prop :=
  ∃ steps, steps.Sublist (cleanupSteps ops pruneDirs) ∧ runSteps steps fs = some fs'

namespace Transaction

variable (T : Transaction)

/-- Where the tree is, and what the database has of the record, when the error comes. -/
inductive Reaches (p : Plan) : Fault → Files → TransactionRecord → Prop where
  | journal : Reaches p .journal T.staged ⟨.staging, [], []⟩
  | apply {calls : Nat} {fs : Files} (applied : runSteps ((applySteps T.staging p).take calls) T.staged = some fs) :
      Reaches p (.apply calls) fs (p.record .applying)
  | commitState {fs : Files} (applied : runSteps (applySteps T.staging p) T.staged = some fs) :
      Reaches p .commitState fs (p.record .applying)

/-- What `commit` returns, and the store then. -/
inductive Returns : Option Fault → Outcome → Store → Prop where
  | refused : Returns (some .start) .failed ⟨T.before, T.tables, none⟩
  /-- Nothing is in the journal yet: the rollback removes what was staged. -/
  | unstaged {fs fs' : Files} (unpacking : Stages T.area T.before fs) (removing : Stages T.area fs fs') :
      Returns (some .stage) .rolledBack ⟨fs', T.tables, none⟩
  | unplanned {fs' : Files} (unpacked : Stages T.area T.before T.staged) (removing : Stages T.area T.staged fs') :
      Returns (some .plan) .rolledBack ⟨fs', T.tables, none⟩
  | rolledBack {p : Plan} {fault : Fault} {fs fs' fs'' : Files} {record : TransactionRecord} (planned : T.Planned p)
      (reaches : T.Reaches p fault fs record) (all : runSteps (rollbackSteps p.ops) fs = some fs')
      (removing : Stages T.area fs' fs'') : Returns (some fault) .rolledBack ⟨fs'', T.tables, none⟩
  | rollbackFailed {p : Plan} {fault : Fault} {fs fs' : Files} {record : TransactionRecord} (planned : T.Planned p)
      (reaches : T.Reaches p fault fs record) (stopped : Stopped (rollbackSteps p.ops) fs fs') :
      Returns (some fault) .rollbackFailed ⟨fs', T.tables, some record⟩
  | success {p : Plan} {fault : Option Fault} {fs fs' fs'' : Files} (planned : T.Planned p)
      (applied : runSteps (applySteps T.staging p) T.staged = some fs)
      (swallowed : fault = none ∨ fault = some .cleanup) (cleaned : Cleans p.ops p.pruneDirs fs fs')
      (removing : Stages T.area fs' fs'') :
      Returns fault .success ⟨fs'', commitState T.tables T.request p T.now, none⟩
  /-- The record of a committed transaction that is cleaned up could not be deleted: rolled back all the same. -/
  | undeleted {p : Plan} {fs fs' fs'' left after : Files} (planned : T.Planned p)
      (applied : runSteps (applySteps T.staging p) T.staged = some fs) (cleaned : Cleans p.ops p.pruneDirs fs fs')
      (removing : Stages T.area fs' fs'') (all : runSteps (rollbackSteps p.ops) fs'' = some left)
      (removingAgain : Stages T.area left after) :
      Returns (some .deleteRecord) .rolledBack ⟨after, commitState T.tables T.request p T.now, none⟩
  | undeletedFailed {p : Plan} {fs fs' fs'' left : Files} (planned : T.Planned p)
      (applied : runSteps (applySteps T.staging p) T.staged = some fs) (cleaned : Cleans p.ops p.pruneDirs fs fs')
      (removing : Stages T.area fs' fs'') (stopped : Stopped (rollbackSteps p.ops) fs'' left) :
      Returns (some .deleteRecord) .rollbackFailed
        ⟨left, commitState T.tables T.request p T.now, some (p.record .committed)⟩

variable {T}

/-- The calls made before an error are some of the applying, from the first on. -/
theorem Reaches.stopped {p : Plan} {fault : Fault} {fs : Files} {record : TransactionRecord}
    (reaches : T.Reaches p fault fs record) : Stopped (applySteps T.staging p) T.staged fs := by
  cases reaches with
  | journal => exact ⟨0, rfl⟩
  | apply applied => exact ⟨_, applied⟩
  | commitState applied =>
      refine ⟨(applySteps T.staging p).length, ?_⟩
      rw [List.take_length]
      exact applied

theorem Reaches.journaled {p : Plan} {fault : Fault} {fs : Files} {record : TransactionRecord}
    (reaches : T.Reaches p fault fs record) : fault.journaled = true := by
  cases reaches <;> rfl

theorem Reaches.fault_ne {p : Plan} {fault : Fault} {fs : Files} {record : TransactionRecord}
    (reaches : T.Reaches p fault fs record) : fault ≠ .deleteRecord := by
  cases reaches <;> simp

/-- The rollback of what was applied so far leaves what was there before. -/
theorem rolledBack_entries {p : Plan} {fs fs' fs'' : Files} (free : Unblocked T.staged p)
    (apart : Apart T.area T.staged p) (planned : T.Planned p)
    (stopped : Stopped (applySteps T.staging p) T.staged fs) (all : runSteps (rollbackSteps p.ops) fs = some fs')
    (removing : Stages T.area fs' fs'') : entriesOutside T.area fs'' = entriesOutside T.area T.before := by
  have setting := planned.setting free apart
  have between := (applySteps_safe setting T.staging).stops _ _ (.start setting) stopped
  have undone := (rollbackSteps_safe setting).ends _ _ between all
  calc entriesOutside T.area fs'' = entriesOutside T.area fs' := stages_entries removing
    _ = entriesOutside T.area T.staged := undone.entries setting
    _ = entriesOutside T.area T.before := stages_entries planned.unpacked

end Transaction

/-- Without a record there is nothing to recover. -/
theorem recovers_none {area : Loc} {s s' s'' : Store} (none_ : s.record = none)
    (recovers : Relation.ReflTransGen (Recovers area) s s') (opens : Opens area s' s'') : s'' = s := by
  have same : s' = s := by
    clear opens
    induction recovers with
    | refl => rfl
    | tail _ again ih =>
        subst ih
        cases again <;> cases none_
  subst same
  cases opens with
  | clean => rfl
  | recovered => cases none_

/-- When `commit` says the transaction is rolled back, the tree and the tables are those before -- where the
journal has operations, if these stand apart and their names were free -- unless it was the record's deletion
that failed: then the tables are the committed ones.  When it says success, whatever is opened later rolls
nothing back. -/
theorem commit_rolled_back (T : Transaction) {fault : Option Fault} {outcome : Outcome} {s : Store}
    (returns : T.Returns fault outcome s) :
    (outcome = .rolledBack → fault ≠ some .deleteRecord →
      (fault.any Fault.journaled = true → ∀ p, T.Planned p → Unblocked T.staged p ∧ Apart T.area T.staged p) →
      SameStore T.area s ⟨T.before, T.tables, none⟩) ∧
    (outcome = .rolledBack → fault = some .deleteRecord →
      ∃ p, T.Planned p ∧ s.tables = commitState T.tables T.request p T.now) ∧
    (outcome = .success → ∀ s' s'', Relation.ReflTransGen (Recovers T.area) s s' → Opens T.area s' s'' → s'' = s) := by
  refine ⟨?_, ?_, ?_⟩
  · intro isRolledBack deletes stands
    cases returns with
    | unstaged unpacking removing =>
        exact ⟨(stages_entries removing).trans (stages_entries unpacking), rfl⟩
    | unplanned unpacked removing =>
        exact ⟨(stages_entries removing).trans (stages_entries unpacked), rfl⟩
    | rolledBack planned reaches all removing =>
        obtain ⟨free, apart⟩ := stands reaches.journaled _ planned
        exact ⟨Transaction.rolledBack_entries free apart planned reaches.stopped all removing, rfl⟩
    | undeleted => exact absurd rfl deletes
    | _ => cases isRolledBack
  · intro isRolledBack undeleted
    cases returns with
    | undeleted planned => exact ⟨_, planned, rfl⟩
    | rolledBack planned reaches all removing => exact absurd (Option.some.inj undeleted) reaches.fault_ne
    | unstaged => cases undeleted
    | unplanned => cases undeleted
    | _ => cases isRolledBack
  · intro isSuccess s' s'' recovers opens
    cases returns with
    | success => exact recovers_none rfl recovers opens
    | _ => cases isSuccess

/-! ## An upgrade -/

theorem etcPlain_apart_of {p : Plan} (planned : etcPlain.Planned p) : Apart etcPlain.area etcPlain.staged p := by
  have same := planned.made.symm.trans etcPlain_planned.made
  cases same
  exact etcPlain_apart

/-- The upgrade's first call is the last that goes through. -/
theorem commit_rolled_back_upgrade : ∃ s : Store, etcPlain.Returns (some (.apply 1)) .rolledBack s ∧
    SameStore etcPlain.area s ⟨etcPlain.before, etcPlain.tables, none⟩ := by
  have runs : ((runSteps ((applySteps etcPlain.staging etcPlan).take 1) etcPlain.staged).bind
      (runSteps (rollbackSteps etcPlan.ops))).isSome = true := by decide
  obtain ⟨fs', ran⟩ := Option.isSome_iff_exists.mp runs
  obtain ⟨fs, applied, rolledBack⟩ := Option.bind_eq_some_iff.mp ran
  have returns : etcPlain.Returns (some (.apply 1)) .rolledBack ⟨fs', etcPlain.tables, none⟩ :=
    .rolledBack etcPlain_planned (.apply applied) rolledBack fun _ _ => Or.inl rfl
  refine ⟨_, returns, (commit_rolled_back etcPlain returns).1 rfl (by decide) fun _ p planned => ?_⟩
  have apart := etcPlain_apart_of planned
  exact ⟨planned.unblocked (etcUpgrade_clean _ _) apart, apart⟩

/-- The record of the upgrade cannot be deleted: it is called rolled back, and is not. -/
theorem undeleted_record : ¬ ∀ T : Transaction, NoLeftovers T.before →
    (∀ p, T.Planned p → Apart T.area T.staged p) → ∀ (fault : Option Fault) (outcome : Outcome) (s : Store),
      T.Returns fault outcome s → outcome = .rolledBack → SameStore T.area s ⟨T.before, T.tables, none⟩ := by
  intro asBefore
  have runs : (((runSteps (applySteps etcPlain.staging etcPlan) etcPlain.staged).bind
      (runSteps (cleanupSteps etcPlan.ops etcPlan.pruneDirs))).bind
        (runSteps (rollbackSteps etcPlan.ops))).isSome = true := by decide
  obtain ⟨fs'', ran⟩ := Option.isSome_iff_exists.mp runs
  obtain ⟨fs', both, rolledBack⟩ := Option.bind_eq_some_iff.mp ran
  obtain ⟨fs, applied, cleaned⟩ := Option.bind_eq_some_iff.mp both
  have same := asBefore etcPlain (etcUpgrade_clean _ _) (fun _ => etcPlain_apart_of) _ _ _
    (.undeleted etcPlain_planned applied ⟨_, List.Sublist.refl _, cleaned⟩ (fun _ _ => Or.inl rfl) rolledBack
      fun _ _ => Or.inl rfl) rfl
  have packages : (commitState etcPlain.tables etcPlain.request etcPlan etcPlain.now).packages =
      etcPlain.tables.packages := congrArg Tables.packages same.2
  revert packages
  decide

end OmarchyPool.PkgStore
