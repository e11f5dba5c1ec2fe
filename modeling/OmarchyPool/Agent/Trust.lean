/-
# OmarchyPool.Agent.Trust -- which releases a host may move to

Pure decisions on what was verified and on the host's state.  A target is admitted at or above
the floor (`admits`); below it only a rollback statement admits it (`admitRollback`), once, and
accepting the statement moves the floor down to its `to` (`acceptRollback`).  `minRelease` and
`revoked` are merged from every verified manifest and never go down.

The verifier is not modelled: a `Manifest` or a `Statement` here is one whose signature held,
and a `Cosigned` lists the maintainers whose co-signature held.
-/
import OmarchyPool.Agent.State

namespace OmarchyPool.Agent

set_option autoImplicit false

/-- The verified manifest of a bundle, as far as the agent's loop reads it. -/
structure Manifest where
  release : Release
  minRelease : Release
  revoked : List Release
  pools : List String
  /-- The time its `created` names, when it names one. -/
  created : Option Int
  /-- The agent it ships, and whether that agent waits for no soak. -/
  agent : Version
  urgent : Bool

/-- A verified rollback statement. -/
structure Statement where
  seq : Nat
  toRelease : Release
  retractsThrough : Release
  agentTo : Option Version

/-- The maintainers whose co-signature verified. -/
structure Cosigned where
  logins : List String

def Cosigned.count (c : Cosigned) : Nat := c.logins.length

/-- How many maintainers must co-sign: the threshold this agent pins. -/
structure Policy where
  threshold : Nat

/-- A statement deeper than a statement may go needs the threshold, and at least one. -/
def Policy.deepRollback (p : Policy) : Nat := max p.threshold 1

def maxRollbackDepthS : Int := 14 * 24 * 3600

inductive Refusal where
  | belowFloor (target floor : Release)
  | belowMinRelease (target minRelease : Release)
  | revoked (target : Release)
  | statementSeq (seq last : Nat)
  | statementRange
  | statementTooDeep (cosigned need : Nat)
  | cosignature
  | poolNotListed
  | verify
  deriving DecidableEq

/-! ## The decisions -/

def merge (state : State) (m : Manifest) : State :=
  { state with
    minRelease :=
      match state.minRelease with
      | none => some m.minRelease
      | some kept => if m.minRelease > kept then some m.minRelease else some kept
    revoked := state.revoked ∪ m.revoked.toFinset }

/-- The checks every target passes, with or without a statement. -/
def floorFreeChecks (state : State) (target : Release) : Except Refusal Unit :=
  match state.minRelease.filter (fun m => decide (target < m)) with
  | some minRelease => .error (.belowMinRelease target minRelease)
  | none => if target ∈ state.revoked then .error (.revoked target) else .ok ()

/-- A target at or above the floor; a fresh host has no floor. -/
def admits (state : State) (target : Release) : Except Refusal Unit :=
  match floorFreeChecks state target with
  | .error refusal => .error refusal
  | .ok () =>
      match state.floor with
      | some floor => if target < floor then .error (.belowFloor target floor) else .ok ()
      | none => .ok ()

def admitRollback (state : State) (target : Release) (st : Statement) (signedAt : Int)
    (toCreated : Option Int) (cosigned deep : Nat) : Except Refusal Unit :=
  match floorFreeChecks state target with
  | .error refusal => .error refusal
  | .ok () =>
      match state.statementSeq.filter (fun last => decide (st.seq ≤ last)) with
      | some last => .error (.statementSeq st.seq last)
      | none =>
          if st.toRelease ≠ target then .error .statementRange
          else
            match state.floor with
            | none => .error .statementRange
            | some floor =>
                if st.toRelease < floor ∧ floor ≤ st.retractsThrough then
                  match toCreated with
                  | none => .error .statementRange
                  | some created =>
                      if signedAt - created > maxRollbackDepthS ∧ cosigned < deep then
                        .error (.statementTooDeep cosigned deep)
                      else .ok ()
                else .error .statementRange

/-- `need` of the pinned maintainers over the bundle, or over the statement that brings it. -/
def cosigned (need : Nat) (bundle : Cosigned) (statement : Option Cosigned) :
    Except Refusal Unit :=
  if statement.any (fun s => decide (s.count ≥ need)) then .ok ()
  else if bundle.count ≥ need then .ok ()
  else .error .cosignature

/-- A co-signed statement vouched for `target`, and the floor still stands there. -/
def vouched (state : State) (target : Release) : Bool :=
  decide (state.vouched = some target) && decide (state.floor = some target)

def acceptRollback (state : State) (st : Statement) (vouches : Bool) : State :=
  { state with
    statementSeq := some st.seq
    floor := some st.toRelease
    vouched := if vouches then some st.toRelease else none }

/-! ## What they promise

`AtLeast bound value` reads a missing bound as no bound, and a missing value as nothing there
yet: what was once at least `bound` must be there and be at least it. -/

/-- Nothing below `bound`. -/
def AtLeast (bound : Option Release) (value : Release) : Prop := ∀ b, bound = some b → b ≤ value

/-- Every bound `before` set, `after` sets as well. -/
def NotLower (before after : Option Release) : Prop :=
  ∀ b, before = some b → ∃ a, after = some a ∧ b ≤ a

theorem NotLower.refl (bound : Option Release) : NotLower bound bound :=
  fun b same => ⟨b, same, le_refl b⟩

theorem NotLower.trans {first second third : Option Release} (one : NotLower first second)
    (two : NotLower second third) : NotLower first third := by
  intro b before
  obtain ⟨middle, between, up⟩ := one b before
  obtain ⟨last, after, further⟩ := two middle between
  exact ⟨last, after, le_trans up further⟩

/-- A release the checks without the floor let through. -/
structure Clear (state : State) (target : Release) : Prop where
  notRevoked : target ∉ state.revoked
  notBelow : AtLeast state.minRelease target

theorem floorFreeChecks_ok {state : State} {target : Release}
    (ok : floorFreeChecks state target = .ok ()) : Clear state target := by
  unfold floorFreeChecks at ok
  split at ok
  · cases ok
  · rename_i noneBelow
    split at ok
    · cases ok
    · rename_i notRevoked
      refine ⟨notRevoked, ?_⟩
      intro bound known
      rw [known] at noneBelow
      simpa [Option.filter] using noneBelow

theorem admits_ok {state : State} {target : Release} (ok : admits state target = .ok ()) :
    Clear state target ∧ AtLeast state.floor target := by
  unfold admits at ok
  split at ok
  · cases ok
  · rename_i free
    refine ⟨floorFreeChecks_ok free, ?_⟩
    intro floor known
    rw [known] at ok
    simp only at ok
    split at ok
    · cases ok
    · rename_i notBelow
      exact not_lt.mp notBelow

/-- `BelowFloor` is the answer to a clear target under the floor, and to nothing else. -/
theorem admits_belowFloor {state : State} {target below floor : Release}
    (refused : admits state target = .error (.belowFloor below floor)) :
    below = target ∧ Clear state target ∧ state.floor = some floor ∧ target < floor := by
  unfold admits at refused
  split at refused
  · rename_i refusal checked
    -- The checks without the floor have no such refusal.
    unfold floorFreeChecks at checked
    split at checked
    · cases checked
      cases refused
    · split at checked
      · cases checked
        cases refused
      · cases checked
  · rename_i free
    split at refused
    · rename_i known
      split at refused
      · rename_i under
        cases refused
        exact ⟨rfl, floorFreeChecks_ok free, known, under⟩
      · cases refused
    · cases refused

theorem admitRollback_ok {state : State} {target : Release} {st : Statement} {signedAt : Int}
    {toCreated : Option Int} {cosigned deep : Nat}
    (ok : admitRollback state target st signedAt toCreated cosigned deep = .ok ()) :
    Clear state target ∧ (∀ last, state.statementSeq = some last → last < st.seq) ∧
      st.toRelease = target ∧
      ∃ floor, state.floor = some floor ∧ st.toRelease < floor ∧ floor ≤ st.retractsThrough := by
  unfold admitRollback at ok
  split at ok
  · cases ok
  · rename_i free
    refine ⟨floorFreeChecks_ok free, ?_⟩
    split at ok
    · cases ok
    · rename_i unspent
      have above : ∀ last, state.statementSeq = some last → last < st.seq := by
        intro last known
        rw [known] at unspent
        simpa [Option.filter] using unspent
      split at ok
      · cases ok
      · rename_i names
        split at ok
        · cases ok
        · rename_i floor known
          split at ok
          · rename_i range
            exact ⟨above, not_not.mp names, floor, known, range.1, range.2⟩
          · cases ok

theorem cosigned_ok {need : Nat} {bundle : Cosigned} {statement : Option Cosigned}
    (ok : cosigned need bundle statement = .ok ()) :
    need ≤ bundle.count ∨ ∃ st, statement = some st ∧ need ≤ st.count := by
  unfold cosigned at ok
  split at ok
  · rename_i signed
    cases statement with
    | none => cases signed
    | some st => exact Or.inr ⟨st, rfl, of_decide_eq_true signed⟩
  · split at ok
    · rename_i enough
      exact Or.inl enough
    · cases ok

theorem vouched_iff {state : State} {target : Release} :
    vouched state target = true ↔ state.vouched = some target ∧ state.floor = some target := by
  simp only [vouched, Bool.and_eq_true, decide_eq_true_eq]

/-! ## What a merge leaves -/

theorem notLower_merge (state : State) (m : Manifest) :
    NotLower state.minRelease (merge state m).minRelease := by
  intro bound known
  simp only [merge, known]
  split
  · rename_i higher
    exact ⟨m.minRelease, rfl, le_of_lt higher⟩
  · exact ⟨bound, rfl, le_refl bound⟩

theorem revoked_subset_merge (state : State) (m : Manifest) :
    state.revoked ⊆ (merge state m).revoked := by
  simp only [merge]
  exact Finset.subset_union_left

end OmarchyPool.Agent
