/-
# OmarchyPool.WorkerOrders.Rules -- the pool's rules for a worker whose agent does not answer

At a claim the pool may order a re-check or a restart by itself (`decideAuto`).  What it counts is
one value on the worker's row, `auto_orders`: the counts of the spell it is in, and the orders of
the last day.  `autoOf` reads that value for a spell and a time; `autoOrder` is what a claim
proposes to write, with the breaker's and the site's answers as it read them.

`errorClass` reads an error's words; it is a parameter here, and the rules' bounds hold for any.
The words of a reason are left out: `Why` names the branch that gave none.
-/
import OmarchyPool.WorkerOrders.Issue

namespace OmarchyPool.WorkerOrders

set_option autoImplicit false

/-! ## Bounds and classes -/

def recheckAfterMin : Int := 5
def restartAfterMin : Int := 10
def restartSpacingMin : Int := 30
def giveUpAfterMin : Int := 30
def minUptimeS : Int := 120
def maxPoolRestartsPerSpell : Nat := 2
def maxPoolRestartsPerDay : Nat := 3
def maxPoolRechecksPerSpell : Nat := 1
def maxPoolRechecksPerDay : Nat := 3

inductive ErrorClass where
  | auth
  | credit
  | rate
  | remote
  | refused
  | dns
  | install
  | sibling
  | unknown
  deriving DecidableEq

/-- The classes a restart cannot help. -/
def nothingClasses : List ErrorClass := [.auth, .credit, .rate, .remote]

/-- Where a worker's agent is. -/
inductive AgentVia where
  | direct
  | sibling
  | broker
  | nowhere
  deriving DecidableEq

inductive ProbeStatus where
  | ok
  | error
  | unchecked
  deriving DecidableEq

/-! ## What the rules read -/

structure Probe where
  status : ProbeStatus
  error : Option String
  checkedAt : Option String

structure ClaimFacts where
  /-- The kinds of order the process takes; `none` for an image from before orders. -/
  takes : Option (List OrderKind)
  agentVia : Option AgentVia
  pairRestart : Bool
  probe : Option Probe

/-- The worker's row as the rules read it. -/
structure RuleRow where
  drained : Bool
  openOrders : List String
  agentVia : Option AgentVia
  agentCheckedAt : Option String
  agentProbedAt : Option Int
  autoOrders : Option AutoState

structure RuleInput where
  row : RuleRow
  claim : ClaimFacts
  status : Option ProbeStatus
  error : Option String
  spell : Option Int
  instanceSince : Option Int
  conflict : Bool
  needsAgent : Bool
  siblingAnswers : Bool
  host : Bool

/-- The spell after a claim's probe: it begins with the first failed probe, at the claim's time,
and ends with an answer. -/
def spellAfter (since : Option Int) (probe : Option Probe) (now : Int) : Option Int :=
  match probe with
  | none => since
  | some p =>
      match p.status with
      | .error => some (since.getD now)
      | .ok => none
      | .unchecked => since

/-- How old the last probe is on the pool's clock; `none` when the pool never saw one. -/
def probeAge (row : RuleRow) (probe : Option Probe) (now : Int) : Option Int :=
  if probe.any fun p => p.checkedAt ≠ row.agentCheckedAt then some 0
  else row.agentProbedAt.map fun t => now - t

/-! ## The rules' state -/

def AutoState.fresh (spell : Option Int) (marks : List AutoMark) : AutoState where
  spell := spell
  rechecks := 0
  restarts := 0
  lastRecheck := none
  lastRestart := none
  gaveUp := none
  day := marks

/-- The value read for a spell at a time: a new spell counts from nothing, the day goes on. -/
def autoOf (v : Option AutoState) (spell : Option Int) (now : Int) : AutoState :=
  match v with
  | none => .fresh spell []
  | some a =>
      let marks := a.day.filter fun d => decide (now - d.time < day)
      if a.spell = spell then { a with day := marks } else .fresh spell marks

def AutoState.dayOf (a : AutoState) (k : AutoKind) : Nat := a.day.countP fun d => d.k = k

def AutoState.recheckedAt (a : AutoState) (now : Int) : AutoState :=
  { a with rechecks := a.rechecks + 1, lastRecheck := some now, day := a.day ++ [⟨.c, now⟩] }

def AutoState.restartedAt (a : AutoState) (now : Int) : AutoState :=
  { a with restarts := a.restarts + 1, lastRestart := some now, day := a.day ++ [⟨.r, now⟩] }

/-! ## The decision -/

/-- Why the rules give nothing, for the page. -/
inductive Why where
  | cannotHelp
  | gaveUp
  | hostProbe
  | unknownError
  | waitsToSee
  | oldBroker
  | noRestart
  | tooYoung
  | dayIsFull
  deriving DecidableEq

inductive Decision where
  | order (kind : OrderKind) (rule : String) (unlessAgentOk : Bool) (next : AutoState)
  | giveUp (next : AutoState)
  | nothing (why : Option Why)

/-- `age >= m * MIN / scale`. -/
def passed (scale : Nat) (m age : Int) : Bool := decide (m * minute ≤ age * scale)

/-- Step 0: one re-check, only when the worker's own has stalled, before any restart of the spell. -/
def recheckDue (x : RuleInput) (takes : List OrderKind) (auto : AutoState) (spell now : Int)
    (scale : Nat) : Bool :=
  passed scale recheckAfterMin (now - spell) && auto.restarts = 0 &&
    decide (auto.rechecks < maxPoolRechecksPerSpell) && takes.contains .recheckAgent &&
    decide (auto.dayOf .c < maxPoolRechecksPerDay) &&
    match probeAge x.row x.claim.probe now with
    | none => true
    | some age => passed scale recheckAfterMin age

/-- Which order helps, by where the agent is. -/
def restartWhere (x : RuleInput) (takes : List OrderKind) (via : Option AgentVia) : OrderKind :=
  if via = some .sibling && takes.contains .restartAgent && !x.siblingAnswers then .restartAgent
  else .restart

/-- A sibling that was restarted already in this spell: the worker itself is restarted. -/
def restartNext (x : RuleInput) (takes : List OrderKind) (auto : AutoState) (via : Option AgentVia) :
    OrderKind :=
  if restartWhere x takes via = .restartAgent && decide (1 ≤ auto.restarts) then .restart
  else restartWhere x takes via

def restartKind (x : RuleInput) (takes : List OrderKind) (auto : AutoState) (via : Option AgentVia) :
    Except (Option Why) OrderKind :=
  if via = some .broker && !x.claim.pairRestart then .error (some .oldBroker)
  else if takes.contains (restartNext x takes auto via) then .ok (restartNext x takes auto via)
  else .error (if restartNext x takes auto via = .restart then some .noRestart else none)

/-- What holds a restart back: its timing, the process's uptime, the day's count. -/
def restartHeld (x : RuleInput) (auto : AutoState) (spell now : Int) (scale : Nat) :
    Option (Option Why) :=
  if auto.restarts = 0 && !passed scale restartAfterMin (now - spell) then some none
  else if auto.restarts = 0 &&
      auto.lastRecheck.any (fun t => !passed scale recheckAfterMin (now - t)) then some none
  else if auto.restarts ≠ 0 &&
      !auto.lastRestart.any (fun t => passed scale restartSpacingMin (now - t)) then some none
  else if !x.instanceSince.any (fun t => decide (minUptimeS * 1000 ≤ now - t)) then
    some (some .tooYoung)
  else if maxPoolRestartsPerDay ≤ auto.dayOf .r then some (some .dayIsFull)
  else none

def ruleName (kind : OrderKind) (n : Nat) : String :=
  kind.name ++ "-" ++ toString n ++ "of" ++ toString maxPoolRestartsPerSpell

section Rules

variable (errorClass : Option String → Option AgentVia → ErrorClass)

/-- The rules' steps once the spell and its counts are known. -/
def decideSpell (x : RuleInput) (takes : List OrderKind) (auto : AutoState) (spell now : Int)
    (scale : Nat) (via : Option AgentVia) (cls : ErrorClass) : Decision :=
  if recheckDue x takes auto spell now scale then
    .order .recheckAgent "recheck-stale" false (auto.recheckedAt now)
  else if x.host then .nothing (some .hostProbe)
  else if cls = .unknown then .nothing (some .unknownError)
  else if maxPoolRestartsPerSpell ≤ auto.restarts then
    if auto.lastRestart.any fun t => passed scale giveUpAfterMin (now - t) then
      .giveUp { auto with gaveUp := some now }
    else .nothing (some .waitsToSee)
  else
    match restartKind x takes auto via with
    | .error why => .nothing why
    | .ok kind =>
        match restartHeld x auto spell now scale with
        | some why => .nothing why
        | none => .order kind (ruleName kind (auto.restarts + 1)) true (auto.restartedAt now)

/-- The pool's rules for one claim. -/
def decideAuto (x : RuleInput) (now : Int) (scale : Nat) : Decision :=
  match x.claim.takes, x.spell with
  | some takes, some spell =>
      if x.conflict || x.row.drained || !x.needsAgent then .nothing none
      else if x.status ≠ some .error || !x.row.openOrders.isEmpty then .nothing none
      else
        let via := x.claim.agentVia.or x.row.agentVia
        let cls := errorClass x.error via
        if nothingClasses.contains cls then .nothing (some .cannotHelp)
        else
          let auto := autoOf x.row.autoOrders x.spell now
          if auto.gaveUp.isSome then .nothing (some .gaveUp)
          else decideSpell x takes auto spell now scale via cls
  | _, _ => .nothing none

/-! ## A claim's proposal -/

inductive SiteVerdict where
  | ok
  | hold
  | giveUp
  deriving DecidableEq

/-- What the site's two reads say: whether the shared agent service answers for another of its
workers, and the verdict on a restart-type order. -/
structure SiteRead where
  siblingsAnswer : Bool
  verdict : OrderKind → SiteVerdict

/-- What a claim proposes to write with the compare-and-set. -/
inductive Proposal where
  | order (kind : OrderKind) (rule : String) (unlessAgentOk : Bool) (next : AutoState)
  | giveUp (next : AutoState)
  deriving DecidableEq

def Proposal.kind : Proposal → Option OrderKind
  | .order kind _ _ _ => some kind
  | .giveUp _ => none

def Proposal.next : Proposal → AutoState
  | .order _ _ _ next => next
  | .giveUp next => next

/-- The site's word on a restart-type order. -/
def atSite (x : RuleInput) (now : Int) (site : SiteRead) (kind : OrderKind) (rule : String)
    (unlessAgentOk : Bool) (next : AutoState) : Option Proposal :=
  match site.verdict kind with
  | .ok => some (.order kind rule unlessAgentOk next)
  | .hold => none
  | .giveUp => some (.giveUp { autoOf x.row.autoOrders x.spell now with gaveUp := some now })

/-- The pool's rules at a claim that has nothing waiting. -/
def autoOrder (breakerHolds : Bool) (site : Option SiteRead) (x : RuleInput) (now : Int)
    (scale : Nat) : Option Proposal :=
  match decideAuto errorClass x now scale with
  | .nothing _ => none
  | .giveUp next => some (.giveUp next)
  | .order kind rule unlessAgentOk next =>
      if x.host && kind ≠ .recheckAgent then none
      else if kind = .recheckAgent then some (.order kind rule unlessAgentOk next)
      else if breakerHolds then none
      else
        match site with
        | none => some (.order kind rule unlessAgentOk next)
        | some s =>
            if kind = .restartAgent && s.siblingsAnswer then
              -- The service answers for another worker: this worker's own process is what fails.
              match decideAuto errorClass { x with siblingAnswers := true } now scale with
              | .order .restart rule unlessAgentOk next => atSite x now s .restart rule unlessAgentOk next
              | _ => none
            else atSite x now s kind rule unlessAgentOk next

end Rules

/-- The rules stop restarting a worker in this spell. -/
def giveUp (worker : String) (old : Option AutoState) (next : AutoState) (db : Db) : Db :=
  db.setAuto worker ⟨old, next⟩

/-! ## What a proposal says of the value it was decided on -/

/-- At the release's pace, everything the rules ask of the counts and the times before they write
`next`: an order of the kind, or with no kind the give-up. -/
inductive Step (auto : AutoState) (spell now : Int) : Option OrderKind → AutoState → Prop where
  | recheck : recheckAfterMin * minute ≤ now - spell → auto.restarts = 0 →
      auto.rechecks < maxPoolRechecksPerSpell → auto.dayOf .c < maxPoolRechecksPerDay →
      Step auto spell now (some .recheckAgent) (auto.recheckedAt now)
  | restart {kind : OrderKind} : kind.restartType = true →
      auto.restarts < maxPoolRestartsPerSpell →
      (auto.restarts = 0 → restartAfterMin * minute ≤ now - spell) →
      (auto.restarts ≠ 0 → ∃ t, auto.lastRestart = some t ∧ restartSpacingMin * minute ≤ now - t) →
      auto.dayOf .r < maxPoolRestartsPerDay →
      Step auto spell now (some kind) (auto.restartedAt now)
  | giveUp : (auto.restarts = 0 → spell < now) →
      Step auto spell now none { auto with gaveUp := some now }

namespace Step

variable {auto next : AutoState} {spell now : Int} {kind : Option OrderKind}

theorem rechecks_room (step : Step auto spell now kind next) (is : kind = some .recheckAgent) :
    auto.dayOf .c < maxPoolRechecksPerDay := by
  cases step with
  | recheck _ _ _ room => exact room
  | restart isRestart _ _ _ _ =>
      cases is
      cases isRestart
  | giveUp _ => cases is

theorem restarts_room (step : Step auto spell now kind next)
    (is : kind.any (·.restartType) = true) :
    auto.dayOf .r < maxPoolRestartsPerDay ∧ auto.restarts < maxPoolRestartsPerSpell ∧
      (auto.restarts ≠ 0 → ∃ t, auto.lastRestart = some t ∧ restartSpacingMin * minute ≤ now - t) := by
  cases step with
  | recheck _ _ _ _ => cases is
  | restart _ few _ spaced room => exact ⟨room, few, spaced⟩
  | giveUp _ => cases is

theorem spell_eq (step : Step auto spell now kind next) : next.spell = auto.spell := by
  cases step <;> rfl

theorem gaveUp_eq (step : Step auto spell now kind next) :
    next.gaveUp = if kind = none then some now else auto.gaveUp := by
  cases step <;> rfl

theorem restarts_eq (step : Step auto spell now kind next) :
    next.restarts = auto.restarts + if kind.any (·.restartType) then 1 else 0 := by
  cases step with
  | recheck _ _ _ _ => rfl
  | restart isRestart _ _ _ _ =>
      rw [Option.any_some, if_pos isRestart]
      rfl
  | giveUp _ => rfl

theorem lastRestart_eq (step : Step auto spell now kind next) :
    next.lastRestart = if kind.any (·.restartType) then some now else auto.lastRestart := by
  cases step with
  | recheck _ _ _ _ => rfl
  | restart isRestart _ _ _ _ =>
      rw [Option.any_some, if_pos isRestart]
      rfl
  | giveUp _ => rfl

/-- What is decided first in a spell is decided after it began. -/
theorem aged (step : Step auto spell now kind next) (none : auto.restarts = 0) : spell < now := by
  cases step with
  | recheck old _ _ _ =>
      simp only [recheckAfterMin, minute] at old
      omega
  | restart _ _ late _ _ =>
      have old := late none
      simp only [restartAfterMin, minute] at old
      omega
  | giveUp aged => exact aged none

end Step

theorem passed_release {m age : Int} : passed 1 m age = true ↔ m * minute ≤ age := by
  simp [passed]

section Inversion

variable {errorClass : Option String → Option AgentVia → ErrorClass} {x : RuleInput}
  {takes : List OrderKind} {auto : AutoState} {spell now : Int} {via : Option AgentVia}
  {cls : ErrorClass}

theorem recheckDue_release (due : recheckDue x takes auto spell now 1 = true) :
    Step auto spell now (some .recheckAgent) (auto.recheckedAt now) := by
  simp only [recheckDue, Bool.and_eq_true, decide_eq_true_eq, passed_release] at due
  obtain ⟨⟨⟨⟨⟨old, none⟩, few⟩, _⟩, room⟩, _⟩ := due
  exact .recheck old none few room

theorem restartNext_restartType : (restartNext x takes auto via).restartType = true := by
  unfold restartNext
  split
  · rfl
  · unfold restartWhere
    split <;> rfl

theorem restartKind_ok {kind : OrderKind} (ok : restartKind x takes auto via = .ok kind) :
    kind.restartType = true := by
  unfold restartKind at ok
  split at ok
  · cases ok
  · split at ok
    · cases ok
      exact restartNext_restartType
    · cases ok

theorem restartHeld_release (free : restartHeld x auto spell now 1 = none) :
    (auto.restarts = 0 → restartAfterMin * minute ≤ now - spell) ∧
      (auto.restarts ≠ 0 → ∃ t, auto.lastRestart = some t ∧ restartSpacingMin * minute ≤ now - t) ∧
      auto.dayOf .r < maxPoolRestartsPerDay := by
  unfold restartHeld at free
  split at free
  · cases free
  rename_i young
  split at free
  · cases free
  split at free
  · cases free
  rename_i _ spaced
  split at free
  · cases free
  split at free
  · cases free
  rename_i _ room
  refine ⟨?_, ?_, Nat.lt_of_not_le room⟩
  · intro none
    simpa [none, passed_release] using young
  · intro some
    simpa [some, passed_release, Option.any_eq_true] using spaced

theorem decideSpell_order {kind : OrderKind} {rule : String} {unlessAgentOk : Bool}
    {next : AutoState}
    (is : decideSpell x takes auto spell now 1 via cls = .order kind rule unlessAgentOk next) :
    Step auto spell now (some kind) next := by
  unfold decideSpell at is
  split at is
  · rename_i due
    cases is
    exact recheckDue_release due
  split at is
  · cases is
  split at is
  · cases is
  split at is
  · split at is <;> cases is
  rename_i few
  split at is
  · cases is
  rename_i chosen kindIs
  split at is
  · cases is
  rename_i free
  cases is
  obtain ⟨late, spaced, room⟩ := restartHeld_release free
  exact .restart (restartKind_ok kindIs) (Nat.lt_of_not_le few) late spaced room

theorem decideSpell_giveUp {next : AutoState}
    (is : decideSpell x takes auto spell now 1 via cls = .giveUp next) :
    Step auto spell now none next := by
  unfold decideSpell at is
  split at is
  · cases is
  split at is
  · cases is
  split at is
  · cases is
  split at is
  · rename_i many
    split at is
    · cases is
      refine .giveUp ?_
      intro none
      rw [none] at many
      exact absurd many (by decide)
    · cases is
  split at is
  · cases is
  split at is <;> cases is

/-- The rules decide something only in a spell that is on and not given up. -/
theorem decideAuto_decides (decides : ∀ why, decideAuto errorClass x now 1 ≠ .nothing why) :
    ∃ takes spell via cls, x.spell = some spell ∧ (autoOf x.row.autoOrders x.spell now).gaveUp = none ∧
      decideAuto errorClass x now 1 =
        decideSpell x takes (autoOf x.row.autoOrders x.spell now) spell now 1 via cls := by
  unfold decideAuto at decides ⊢
  split at decides
  · rename_i takes spell takesIs spellIs
    split at decides
    · exact absurd rfl (decides _)
    rename_i quiet
    split at decides
    · exact absurd rfl (decides _)
    rename_i failing
    dsimp only at decides ⊢
    split at decides
    · exact absurd rfl (decides _)
    rename_i helps
    split at decides
    · exact absurd rfl (decides _)
    rename_i going
    refine ⟨takes, spell, x.claim.agentVia.or x.row.agentVia,
      errorClass x.error (x.claim.agentVia.or x.row.agentVia), spellIs, by simpa using going, ?_⟩
    rw [if_neg quiet, if_neg failing, if_neg helps, if_neg going]
  · exact absurd rfl (decides none)

theorem decideAuto_order {kind : OrderKind} {rule : String} {unlessAgentOk : Bool} {next : AutoState}
    (is : decideAuto errorClass x now 1 = .order kind rule unlessAgentOk next) :
    ∃ spell, x.spell = some spell ∧ (autoOf x.row.autoOrders x.spell now).gaveUp = none ∧
      Step (autoOf x.row.autoOrders x.spell now) spell now (some kind) next := by
  have decides : ∀ why, decideAuto errorClass x now 1 ≠ .nothing why := by
    rw [is]
    exact fun _ => nofun
  obtain ⟨takes, spell, via, cls, spellIs, going, same⟩ := decideAuto_decides decides
  exact ⟨spell, spellIs, going, decideSpell_order (same.symm.trans is)⟩

theorem decideAuto_giveUp {next : AutoState} (is : decideAuto errorClass x now 1 = .giveUp next) :
    ∃ spell, x.spell = some spell ∧ (autoOf x.row.autoOrders x.spell now).gaveUp = none ∧
      Step (autoOf x.row.autoOrders x.spell now) spell now none next := by
  have decides : ∀ why, decideAuto errorClass x now 1 ≠ .nothing why := by
    rw [is]
    exact fun _ => nofun
  obtain ⟨takes, spell, via, cls, spellIs, going, same⟩ := decideAuto_decides decides
  exact ⟨spell, spellIs, going, decideSpell_giveUp (same.symm.trans is)⟩

theorem atSite_step {site : SiteRead} {kind : OrderKind} {rule : String} {unlessAgentOk : Bool}
    {next : AutoState} {p : Proposal}
    (step : Step (autoOf x.row.autoOrders x.spell now) spell now (some kind) next)
    (is : atSite x now site kind rule unlessAgentOk next = some p) :
    Step (autoOf x.row.autoOrders x.spell now) spell now p.kind p.next := by
  unfold atSite at is
  split at is
  · cases is
    exact step
  · cases is
  · cases is
    exact .giveUp step.aged

/-- Whatever a claim proposes, the rules' conditions hold of the value it read. -/
theorem autoOrder_step {breakerHolds : Bool} {site : Option SiteRead} {p : Proposal}
    (is : autoOrder errorClass breakerHolds site x now 1 = some p) :
    ∃ spell, x.spell = some spell ∧ (autoOf x.row.autoOrders x.spell now).gaveUp = none ∧
      Step (autoOf x.row.autoOrders x.spell now) spell now p.kind p.next := by
  unfold autoOrder at is
  split at is
  · cases is
  · rename_i next decided
    cases is
    exact decideAuto_giveUp decided
  · rename_i kind rule unlessAgentOk next decided
    obtain ⟨spell, spellIs, going, step⟩ := decideAuto_order decided
    refine ⟨spell, spellIs, going, ?_⟩
    split at is
    · cases is
    split at is
    · cases is
      exact step
    split at is
    · cases is
    split at is
    · cases is
      exact step
    split at is
    · split at is
      · rename_i again
        obtain ⟨other, otherIs, _, restart⟩ := decideAuto_order again
        obtain rfl : spell = other := Option.some.inj (spellIs.symm.trans otherIs)
        exact atSite_step restart is
      · cases is
    · exact atSite_step step is

end Inversion

end OmarchyPool.WorkerOrders
