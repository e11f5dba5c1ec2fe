/-
# OmarchyPool.WorkerOrders.Instance -- which process is behind a worker's claims

A process draws its instance once and names it in every claim.  `instanceStep` compares a claim's with
the row's: one process that goes on, a new one, or two on one token.  While two share the token orders
are held; the row names one of them, and a claim of any other is recorded at most every `touchMinutes`
and makes that one the process the row names.

What carries the end of a conflict is what the row knows of the claims it did not record: since the last
recorded one, none that came a whole rhythm later was another's (`Watched`).  So a claim that ends it
comes from a process that claimed alone for `conflictWindowMin` (`conflict_ends_alone`).

The words of the journal are left out: a `ProcessLine` names which one it is, with what it says.
-/
import OmarchyPool.WorkerOrders.Rules

namespace OmarchyPool.WorkerOrders

set_option autoImplicit false

/-! ## The row and the claim -/

def churnWindowMin : Int := 10
def churnClearMin : Int := 30
def crashLoopAt : Nat := 3
def conflictWindowMin : Int := 10
def watchdogResetH : Int := 24
def touchMinutes : Int := 3

def minuteMs : Int := 60000
def hourMs : Int := 60 * minuteMs

inductive WorkerTrust where
  | project
  | community
deriving DecidableEq, Repr

inductive StuckIn where
  | claim | task | order
deriving DecidableEq, Repr

inductive ExitWhy where
  | idle | drain | restart | watchdog
deriving DecidableEq, Repr

structure PreviousExit where
  why : ExitWhy
  stuckIn : Option StuckIn
deriving DecidableEq, Repr

structure WatchdogExits where
  n : Nat
  since : Int
  last : Int
  stuckIn : Option StuckIn
deriving DecidableEq, Repr

structure OpenOrder where
  kind : OrderKind
  delivered : Bool
deriving DecidableEq

/-- The worker's row as the step reads it; `inst` is the source's `instance`, and a time is its milliseconds. -/
structure ProcessRow where
  id : String
  owner : Option String
  trust : WorkerTrust
  version : Option String
  lastTask : Option Nat
  openOrders : List OpenOrder
  orderKinds : Option (List OrderKind)
  inst : Option String
  prev : Option String
  since : Option Int
  conflictAt : Option Int
  otherAt : Option Int
  churn : Option Nat
  finished : Option String
  crashLoopSince : Option Int
  watchdogExits : Option WatchdogExits
  startedAt : Option Int
  agentVia : Option AgentVia
  site : Option String
  restartsLeft : Option Nat
deriving DecidableEq

/-- What a claim says of its process. -/
structure ProcessFacts where
  takes : Option (List OrderKind)
  inst : Option String
  startedAt : Option Int
  agentVia : Option AgentVia
  site : Option String
  restartsLeft : Option Nat
  previousExit : Option PreviousExit
  version : Option String
deriving DecidableEq

/-- A column and what is written to it. -/
inductive Assign where
  | orderKinds (value : Option (List OrderKind))
  | inst (value : Option String)
  | prev (value : Option String)
  | since (value : Option Int)
  | conflictAt (value : Option Int)
  | otherAt (value : Option Int)
  | churn (value : Option Nat)
  | crashLoopSince (value : Option Int)
  | watchdogExits (value : Option WatchdogExits)
  | startedAt (value : Option Int)
  | agentVia (value : Option AgentVia)
  | site (value : Option String)
  | restartsLeft (value : Option Nat)
deriving DecidableEq

def ProcessRow.assign (row : ProcessRow) : Assign → ProcessRow
  | .orderKinds value => { row with orderKinds := value }
  | .inst value => { row with inst := value }
  | .prev value => { row with prev := value }
  | .since value => { row with since := value }
  | .conflictAt value => { row with conflictAt := value }
  | .otherAt value => { row with otherAt := value }
  | .churn value => { row with churn := value }
  | .crashLoopSince value => { row with crashLoopSince := value }
  | .watchdogExits value => { row with watchdogExits := value }
  | .startedAt value => { row with startedAt := value }
  | .agentVia value => { row with agentVia := value }
  | .site value => { row with site := value }
  | .restartsLeft value => { row with restartsLeft := value }

/-- A process as the public record names it. -/
def short (inst : Option String) : String := (inst.filter (· ≠ "")).elim "none" fun i => (i.take 4).toString ++ "…"

inductive ProcessLine where
  | oneProcess (inst : String)
  | staysUp (inst : String)
  | twoProcesses (one other : String)
  | watchdog (exits : WatchdogExits)
  | worksAgain (task : Option Nat)
  | crashLoop (churn : Nat) (version : Option String)
deriving DecidableEq

/-- A line, written while the row holds what the step wrote. -/
structure StepLine where
  line : ProcessLine
  guard : Assign
deriving DecidableEq

structure InstanceStep where
  set : List Assign
  guard : Option String
  journal : List StepLine
  conflict : Bool
  inst : Option String
  instSince : Option Int
deriving DecidableEq

/-! ## The step -/

/-- The host's hash under the name of who runs it. -/
def siteKey (row : ProcessRow) (site : Option String) : Option String :=
  (site.filter (· ≠ "")).map fun site =>
    match row.trust with
    | .project => "project/" ++ site
    | .community => row.owner.getD "?" ++ "/" ++ site

/-- The process the row names goes on, with what ends its conflict. -/
def sameProcess (row : ProcessRow) (c : ProcessFacts) (now : Int) (set : List Assign) (journal : List StepLine) :
    InstanceStep :=
  let staysUp := row.crashLoopSince.isSome && row.since.any fun t => decide (now - t ≥ churnClearMin * minuteMs)
  { set := set ++ (if staysUp then [.crashLoopSince none, .churn (some 0)] else []) ++
      (if c.takes ≠ row.orderKinds then [.orderKinds c.takes] else [])
    guard := row.inst
    journal := journal ++ (if staysUp then [⟨.staysUp (short c.inst), .crashLoopSince none⟩] else [])
    conflict := false
    inst := row.inst
    instSince := row.since }

/-- The watchdog's exits with the one a claim reports. -/
def nextExits (row : ProcessRow) (stuckIn : Option StuckIn) (now : Int) : WatchdogExits :=
  match row.watchdogExits.filter fun w => decide (now - w.since < watchdogResetH * hourMs) with
  | none => ⟨1, now, now, stuckIn⟩
  | some w => ⟨w.n + 1, w.since, now, stuckIn⟩

/-- Nothing explains the end of the process before. -/
def unexplained (row : ProcessRow) (c : ProcessFacts) : Bool :=
  c.previousExit.isNone &&
    !(row.openOrders.any fun o => o.kind = .restart && o.delivered || o.kind = .stopTask) && row.version = c.version

def newProcess (row : ProcessRow) (c : ProcessFacts) (now : Int) : InstanceStep :=
  let livedShort := row.since.any fun t => decide (now - t < churnWindowMin * minuteMs)
  let finished := row.inst.isSome && row.finished = row.inst
  let counts := row.inst.isSome && livedShort && !finished && unexplained row c
  let exit := c.previousExit.filter (·.why = .watchdog)
  let churn := if exit.isSome || !counts then 0 else row.churn.getD 0 + 1
  let exits := exit.map fun e => nextExits row e.stuckIn now
  let works := row.crashLoopSince.isSome && finished
  let loops := !works && crashLoopAt ≤ churn && row.crashLoopSince.isNone
  { set := [.prev row.inst, .inst c.inst, .since (some now), .orderKinds c.takes, .agentVia c.agentVia,
        .site (siteKey row c.site), .restartsLeft c.restartsLeft] ++
      (c.startedAt.elim [] fun t => [.startedAt (some (row.startedAt.elim t (max t)))]) ++
      (exits.elim [] fun w => [.watchdogExits (some w)]) ++
      (if works then [.crashLoopSince none] else if loops then [.crashLoopSince (some now)] else []) ++
      [.churn (some (if works then 0 else churn))]
    guard := row.inst
    journal :=
      (exits.elim [] fun w => if w.n = 1 ∨ w.n = 3 then [⟨.watchdog w, .watchdogExits (some w)⟩] else []) ++
      (if works then [⟨.worksAgain row.lastTask, .crashLoopSince none⟩]
        else if loops then [⟨.crashLoop churn c.version, .crashLoopSince (some now)⟩] else [])
    conflict := false
    inst := c.inst
    instSince := some now }

/-- Two processes: the one that claims is recorded, and becomes the one the row names. -/
def recorded (row : ProcessRow) (c : ProcessFacts) (set : List Assign) (journal : List StepLine) : InstanceStep where
  set := set
  guard := row.inst
  journal := journal
  conflict := true
  inst := c.inst
  instSince := row.since

/-- Two processes, and nothing to write. -/
def unrecorded (row : ProcessRow) : InstanceStep := ⟨[], row.inst, [], true, row.inst, row.since⟩

/-- The process before, back soon after the row's first claimed. -/
def comesBack (row : ProcessRow) (c : ProcessFacts) (now : Int) : Bool :=
  c.inst.isSome && row.prev.any (· ≠ "") && c.inst = row.prev &&
    row.since.any fun t => decide (now - t < conflictWindowMin * minuteMs)

def instanceStep (row : ProcessRow) (c : ProcessFacts) (now : Int) : InstanceStep :=
  if row.conflictAt.isSome then
    if c.inst ≠ row.inst then
      if row.otherAt.any fun t => decide (now - t < touchMinutes * minuteMs) then unrecorded row
      else recorded row c [.prev row.inst, .inst c.inst, .otherAt (some now), .orderKinds c.takes] []
    else if row.otherAt.any fun t => decide (now - t < (conflictWindowMin + touchMinutes) * minuteMs) then
      unrecorded row
    else
      sameProcess row c now [.conflictAt none, .otherAt none] [⟨.oneProcess (short c.inst), .conflictAt none⟩]
  else if c.inst = row.inst then sameProcess row c now [] []
  else if comesBack row c now then
    recorded row c
      [.conflictAt (some now), .prev row.inst, .inst c.inst, .otherAt (some now), .orderKinds c.takes]
      [⟨.twoProcesses (short row.inst) (short c.inst), .conflictAt (some now)⟩]
  else newProcess row c now

/-- The row after a claim, its step written. -/
def ProcessRow.claimed (row : ProcessRow) (c : ProcessFacts) (now : Int) : ProcessRow :=
  (instanceStep row c now).set.foldl ProcessRow.assign row

/-! ## What a claim leaves of the conflict -/

section Claimed

variable (row : ProcessRow) (c : ProcessFacts) (now : Int)

/-- What a process goes on with besides says nothing of the conflict. -/
theorem sameProcess_watch (set : List Assign) (journal : List StepLine) :
    let after := (sameProcess row c now set journal).set.foldl ProcessRow.assign row
    let ends := set.foldl ProcessRow.assign row
    after.conflictAt = ends.conflictAt ∧ after.otherAt = ends.otherAt ∧ after.inst = ends.inst := by
  unfold sameProcess
  dsimp only
  rw [List.foldl_append, List.foldl_append]
  split <;> split <;> simp [ProcessRow.assign]

theorem newProcess_watch :
    ((newProcess row c now).set.foldl ProcessRow.assign row).conflictAt = row.conflictAt := by
  unfold newProcess
  extract_lets livedShort finished counts exit churn exits works loops
  simp only [List.foldl_append]
  generalize exits = exits
  cases c.startedAt <;> cases exits <;> cases works <;> cases loops <;> simp [ProcessRow.assign]

/-- Every way a claim can go for the conflict: none stands after it; one stands that was set now; or the one that
stood stands, and the claim was the row's process's, came within the rhythm, or is recorded. -/
theorem claimed_cases :
    (row.claimed c now).conflictAt = none ∧
        (row.conflictAt.isSome → c.inst = row.inst ∧
          ∀ t ∈ row.otherAt, (conflictWindowMin + touchMinutes) * minuteMs ≤ now - t) ∨
    row.conflictAt = none ∧ (row.claimed c now).conflictAt = some now ∧ (row.claimed c now).otherAt = some now ∨
    (row.conflictAt.isSome ∧ (row.claimed c now).conflictAt = row.conflictAt ∧
      ((row.claimed c now).otherAt = some now ∨
        (row.claimed c now).otherAt = row.otherAt ∧ (row.claimed c now).inst = row.inst ∧
          (c.inst = row.inst ∨ ∃ t ∈ row.otherAt, now - t < touchMinutes * minuteMs))) := by
  unfold ProcessRow.claimed instanceStep
  by_cases conflict : row.conflictAt.isSome
  · rw [if_pos conflict]
    by_cases other : c.inst ≠ row.inst
    · rw [if_pos other]
      split
      · rename_i soon
        refine .inr (.inr ⟨conflict, rfl, .inr ⟨rfl, rfl, .inr ?_⟩⟩)
        obtain ⟨t, isOther, within⟩ := (Option.any_eq_true _ _).mp soon
        exact ⟨t, isOther, of_decide_eq_true within⟩
      · exact .inr (.inr ⟨conflict, rfl, .inl rfl⟩)
    · rw [if_neg other]
      split
      · exact .inr (.inr ⟨conflict, rfl, .inr ⟨rfl, rfl, .inl (not_not.mp other)⟩⟩)
      · rename_i late
        refine .inl ⟨(sameProcess_watch row c now _ _).1, fun _ => ⟨not_not.mp other, fun t isOther => ?_⟩⟩
        rw [Option.mem_def.mp isOther] at late
        simpa using late
  · rw [if_neg conflict]
    have none_ : row.conflictAt = none := by simpa using conflict
    split
    · exact .inl ⟨(sameProcess_watch row c now [] []).1.trans none_, fun is => absurd is conflict⟩
    · split
      · exact .inr (.inl ⟨none_, rfl, rfl⟩)
      · exact .inl ⟨(newProcess_watch row c now).trans none_, fun is => absurd is conflict⟩

end Claimed

/-! ## Runs -/

/-- A claim of the past: when, and of which process. -/
abbrev Claimed := Int × Option String

/-- The claims on one token, one after another, and the columns others write between them.  A run starts with
no conflict. -/
inductive ProcessRun : ProcessRow → List Claimed → Prop where
  | start (row : ProcessRow) (none_ : row.conflictAt = none) : ProcessRun row []
  | claim {row : ProcessRow} {past : List Claimed} (run : ProcessRun row past) (c : ProcessFacts) (now : Int)
      (later : ∀ claim ∈ past, claim.1 ≤ now) : ProcessRun (row.claimed c now) ((now, c.inst) :: past)
  | elsewhere {row row' : ProcessRow} {past : List Claimed} (run : ProcessRun row past)
      (conflictAt : row'.conflictAt = row.conflictAt) (otherAt : row'.otherAt = row.otherAt)
      (inst : row'.inst = row.inst) : ProcessRun row' past

/-- What the row knows of the claims while two processes share the token: another's was last recorded at
`otherAt`, not before the conflict was set, and none that came a rhythm or more after it was another's. -/
def Watched (row : ProcessRow) (past : List Claimed) : Prop :=
  ∀ set ∈ row.conflictAt, ∃ other ∈ row.otherAt, set ≤ other ∧ (∃ claim ∈ past, claim.1 = other) ∧
    ∀ claim ∈ past, touchMinutes * minuteMs ≤ claim.1 - other → claim.2 = row.inst

theorem rhythm_pos : 0 < touchMinutes * minuteMs := by decide

/-- A claim just recorded is watched from now on. -/
theorem watched_now {row : ProcessRow} {past : List Claimed} {set : Int} {now : Claimed}
    (isSet : row.conflictAt = some set) (isOther : row.otherAt = some now.1) (before : set ≤ now.1)
    (later : ∀ claim ∈ past, claim.1 ≤ now.1) : Watched row (now :: past) := by
  intro set' isSet'
  rw [isSet, Option.mem_some] at isSet'
  subst isSet'
  refine ⟨now.1, isOther, before, ⟨now, List.mem_cons_self, rfl⟩, fun claim member apart => ?_⟩
  have positive := rhythm_pos
  -- nothing came later than the claim itself
  have notLater : claim.1 ≤ now.1 := by
    rcases List.mem_cons.mp member with rfl | earlier
    · exact Int.le_refl _
    · exact later claim earlier
  omega

/-- A claim keeps the watch: one that is not recorded is the row's own process's, or came within the rhythm. -/
theorem Watched.claimed {row : ProcessRow} {past : List Claimed} (watched : Watched row past) (c : ProcessFacts)
    (now : Int) (later : ∀ claim ∈ past, claim.1 ≤ now) :
    Watched (row.claimed c now) ((now, c.inst) :: past) := by
  rcases claimed_cases row c now with
    ⟨none_, -⟩ | ⟨-, isSet, isOther⟩ | ⟨conflict, isSet, isOther | ⟨isOther, isInst, whose⟩⟩
  · intro set isSet
    rw [none_] at isSet
    cases isSet
  · exact watched_now isSet isOther (Int.le_refl _) later
  · obtain ⟨set, stood⟩ := Option.isSome_iff_exists.mp conflict
    obtain ⟨other, -, before, ⟨claim, member, isClaim⟩, -⟩ := watched set stood
    have : other ≤ now := isClaim ▸ later claim member
    exact watched_now (isSet.trans stood) isOther (Int.le_trans before this) later
  · intro set stands
    rw [isSet] at stands
    obtain ⟨other, wasOther, before, ⟨recorded, member, isClaim⟩, alone⟩ := watched set stands
    refine ⟨other, isOther ▸ wasOther, before, ⟨recorded, List.mem_cons_of_mem _ member, isClaim⟩, ?_⟩
    intro claim among apart
    rw [isInst]
    rcases List.mem_cons.mp among with rfl | earlier
    · rcases whose with same | ⟨t, isOther', soon⟩
      · exact same
      · rw [Option.mem_def.mp wasOther, Option.mem_some] at isOther'
        subst isOther'
        exact absurd soon (Int.not_lt.mpr apart)
    · exact alone claim earlier apart

theorem ProcessRun.watched {row : ProcessRow} {past : List Claimed} (run : ProcessRun row past) :
    Watched row past := by
  induction run with
  | start row none_ =>
    intro set isSet
    rw [none_] at isSet
    cases isSet
  | claim _ c now later watched => exact watched.claimed c now later
  | elsewhere _ conflictAt otherAt inst watched =>
    unfold Watched
    rw [conflictAt, otherAt, inst]
    exact watched

/-- A claim that ends a conflict comes 13 minutes or more after another's was last recorded, so what came a rhythm
after that was all the row's process's, which is the claim's own. -/
theorem ProcessRun.cleared {row : ProcessRow} {past : List Claimed} (run : ProcessRun row past) {set : Int}
    (stands : row.conflictAt = some set) {c : ProcessFacts} {now : Int}
    (clears : (row.claimed c now).conflictAt = none) :
    ∃ other, set ≤ other ∧ (conflictWindowMin + touchMinutes) * minuteMs ≤ now - other ∧
      ∀ claim ∈ (now, c.inst) :: past, touchMinutes * minuteMs ≤ claim.1 - other → claim.2 = c.inst := by
  obtain ⟨other, isOther, before, -, alone⟩ := run.watched set stands
  rcases claimed_cases row c now with ⟨-, ended⟩ | ⟨none_, -⟩ | ⟨-, kept, -⟩
  · obtain ⟨same, late⟩ := ended (by rw [stands]; rfl)
    refine ⟨other, before, late other isOther, fun claim member apart => ?_⟩
    rcases List.mem_cons.mp member with rfl | earlier
    · rfl
    · exact (alone claim earlier apart).trans same.symm
  · rw [stands] at none_
    cases none_
  · rw [clears, stands] at kept
    cases kept

/-- **A conflict ends only with one process.**  A claim that ends it comes from the process that made every claim of
the `conflictWindowMin` minutes before; and while two processes each claim in every window of `touchMinutes` since
it was set, a claim leaves it as it stands. -/
theorem conflict_ends_alone {row : ProcessRow} {past : List Claimed} (run : ProcessRun row past) (c : ProcessFacts)
    (now : Int) (set : Int) (stands : row.conflictAt = some set) :
    ((row.claimed c now).conflictAt = none →
        ∀ claim ∈ past, now - conflictWindowMin * minuteMs ≤ claim.1 → claim.2 = c.inst) ∧
      ∀ a b : Option String, a ≠ b →
        (∀ x, set ≤ x → x + touchMinutes * minuteMs ≤ now → ∀ i, i = a ∨ i = b →
          ∃ claim ∈ (now, c.inst) :: past, x ≤ claim.1 ∧ claim.1 ≤ x + touchMinutes * minuteMs ∧ claim.2 = i) →
        (row.claimed c now).conflictAt = some set := by
  have windows : (conflictWindowMin + touchMinutes) * minuteMs =
      conflictWindowMin * minuteMs + touchMinutes * minuteMs := by decide
  have shorter : touchMinutes * minuteMs ≤ conflictWindowMin * minuteMs := by decide
  constructor
  · intro clears claim member within
    obtain ⟨other, -, late, alone⟩ := run.cleared stands clears
    exact alone claim (List.mem_cons_of_mem _ member) (by omega)
  · intro a b apart both
    rcases claimed_cases row c now with ⟨clears, -⟩ | ⟨none_, -⟩ | ⟨-, kept, -⟩
    · -- the window a rhythm after the last recorded claim would hold a claim of each
      obtain ⟨other, before, late, alone⟩ := run.cleared stands clears
      have positive := rhythm_pos
      have whose : ∀ i, i = a ∨ i = b → i = c.inst := by
        intro i either
        obtain ⟨claim, member, after, -, rfl⟩ :=
          both (other + touchMinutes * minuteMs) (by omega) (by omega) i either
        exact alone claim member (by omega)
      exact absurd ((whose a (.inl rfl)).trans (whose b (.inr rfl)).symm) apart
    · rw [stands] at none_
      cases none_
    · rw [kept, stands]

/-- A row that has seen no process, and a claim of a process that names itself `inst`. -/
def noProcessYet : ProcessRow :=
  ⟨"w1", none, .project, none, none, [], none, none, none, none, none, none, none, none, none, none, none, none, none, none⟩

def claimOf (inst : String) : ProcessFacts := ⟨none, some inst, none, none, none, none, none, none⟩

/-- Two processes take turns in the minutes 0, 1 and 2: the third claim is the first process's again. -/
def twoTakeTurns : ProcessRow :=
  ((noProcessYet.claimed (claimOf "aaaa") 0).claimed (claimOf "bbbb") (1 * minuteMs)).claimed (claimOf "aaaa") (2 * minuteMs)

theorem twoTakeTurns_run :
    ProcessRun twoTakeTurns [(2 * minuteMs, some "aaaa"), (1 * minuteMs, some "bbbb"), (0, some "aaaa")] :=
  .claim (.claim (.claim (.start noProcessYet rfl) (claimOf "aaaa") 0 (by decide)) (claimOf "bbbb") (1 * minuteMs)
    (by decide)) (claimOf "aaaa") (2 * minuteMs) (by decide)

/-- Thirteen quiet minutes on, a claim of the first ends the conflict; one of the second within the rhythm and one of
the first a rhythm on leave it. -/
theorem conflict_ends_alone_turns :
    ((twoTakeTurns.claimed (claimOf "aaaa") (15 * minuteMs)).conflictAt = none ∧
      ∀ claim ∈ [(2 * minuteMs, some "aaaa"), (1 * minuteMs, some "bbbb"), (0, some "aaaa")],
        15 * minuteMs - conflictWindowMin * minuteMs ≤ claim.1 → claim.2 = some "aaaa") ∧
    ((twoTakeTurns.claimed (claimOf "bbbb") (4 * minuteMs)).claimed (claimOf "aaaa") (5 * minuteMs)).conflictAt =
      some (2 * minuteMs) := by
  refine ⟨⟨by decide, (conflict_ends_alone twoTakeTurns_run (claimOf "aaaa") (15 * minuteMs) (2 * minuteMs)
    (by decide)).1 (by decide)⟩, ?_⟩
  have run := twoTakeTurns_run.claim (claimOf "bbbb") (4 * minuteMs) (by decide)
  refine (conflict_ends_alone run (claimOf "aaaa") (5 * minuteMs) (2 * minuteMs) (by decide)).2
    (some "aaaa") (some "bbbb") (by decide) fun x after before i either => ?_
  have only : x = 2 * minuteMs := by
    simp only [touchMinutes, minuteMs] at *
    omega
  subst only
  rcases either with rfl | rfl
  · exact ⟨(5 * minuteMs, some "aaaa"), by decide, by decide, by decide, rfl⟩
  · exact ⟨(4 * minuteMs, some "bbbb"), by decide, by decide, by decide, rfl⟩

end OmarchyPool.WorkerOrders
