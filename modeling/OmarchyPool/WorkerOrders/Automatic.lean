/-
# OmarchyPool.WorkerOrders.Automatic -- what the pool orders by itself is bounded

A claim reads the worker's row, takes its own time later, decides, and writes the next value of the
rules' state with the order it issues -- only if the row still holds what it read.  A run here is
any interleaving of claims of one worker, with spells beginning and ending and the rest of the
tables changing in between.

A write that finds the value it read has read the newest one, for no value comes back
(`Chain.value_ne`); so what was written is a `Chain`, and the bounds are the chain's.
-/
import OmarchyPool.WorkerOrders.Chain

namespace OmarchyPool.WorkerOrders

set_option autoImplicit false

open Lib

/-! ## Runs -/

/-- The worker's row as a claim read it: the rules' state, and the spells it had had by then. -/
structure ClaimRead where
  auto : Option AutoState
  spells : List Int
  failing : Bool
  readAt : Int

/-- `agent_error_since`. -/
def ClaimRead.since (r : ClaimRead) : Option Int := if r.failing then r.spells.head? else none

/-- The tables, the spells the worker has had (newest first, the newest still on while `failing`),
the pool's clock, what claims in flight read, and what the rules wrote (newest first). -/
structure Sys where
  db : Db
  spells : List Int
  failing : Bool
  clock : Int
  reads : List ClaimRead
  log : List Written

/-- A claim that read `r` is at its rules, by its own time. -/
structure AtRules (s : Sys) (r : ClaimRead) (x : RuleInput) (now : Int) : Prop where
  read : r ∈ s.reads
  after : r.readAt ≤ now
  past : now ≤ s.clock
  auto : x.row.autoOrders = r.auto
  spell : x.spell = spellAfter r.since x.claim.probe now

/-- The ask is the rules' order to the worker. -/
structure AsksFor (worker : String) (r : ClaimRead) (now : Int) (kind : OrderKind) (rule : String)
    (next : AutoState) (a : IssueAsk) : Prop where
  worker : a.worker = worker
  kind : a.kind = kind
  rule : a.rule = some rule
  auto : a.auto = some ⟨r.auto, next⟩
  now : a.now = now

/-- The runs of one worker's claims, at the release's pace.  A spell is named by the time of the
claim that began it, and two spells of a worker do not begin at one millisecond. -/
inductive Reach (errorClass : Option String → Option AgentVia → ErrorClass) (worker : String) :
    Sys → Prop where
  | start (db : Db) (clock : Int) : db.autoRow worker = some none →
      Reach errorClass worker ⟨db, [], false, clock, [], []⟩
  | tick {s : Sys} (later : Int) : Reach errorClass worker s → s.clock ≤ later →
      Reach errorClass worker { s with clock := later }
  | begins {s : Sys} (since : Int) : Reach errorClass worker s → s.failing = false →
      since ∉ s.spells →
      Reach errorClass worker { s with spells := since :: s.spells, failing := true }
  | ends {s : Sys} : Reach errorClass worker s → Reach errorClass worker { s with failing := false }
  | reads {s : Sys} : Reach errorClass worker s →
      Reach errorClass worker
        { s with reads := ⟨s.db.autoOrders worker, s.spells, s.failing, s.clock⟩ :: s.reads }
  | orders {s : Sys} {r : ClaimRead} {x : RuleInput} {now : Int} {breakerHolds : Bool}
      {site : Option SiteRead} {kind : OrderKind} {rule : String} {unlessAgentOk : Bool}
      {next : AutoState} {a : IssueAsk} {id : String} {db' : Db} :
      Reach errorClass worker s → AtRules s r x now →
      autoOrder errorClass breakerHolds site x now 1 = some (.order kind rule unlessAgentOk next) →
      AsksFor worker r now kind rule next a → issueOrder id a s.db = .ok db' →
      Reach errorClass worker
        { s with db := db', log := ⟨some kind, now, r.spells, next⟩ :: s.log }
  | givesUp {s : Sys} {r : ClaimRead} {x : RuleInput} {now : Int} {breakerHolds : Bool}
      {site : Option SiteRead} {next : AutoState} :
      Reach errorClass worker s → AtRules s r x now →
      autoOrder errorClass breakerHolds site x now 1 = some (.giveUp next) →
      s.db.autoOrders worker = r.auto →
      Reach errorClass worker
        { s with db := giveUp worker r.auto next s.db, log := ⟨none, now, r.spells, next⟩ :: s.log }
  | elsewhere {s : Sys} (db' : Db) : Reach errorClass worker s →
      db'.autoRow worker = s.db.autoRow worker → Reach errorClass worker { s with db := db' }

/-! ## The row holds the newest value -/

/-- What a claim read was the newest value when it read it. -/
def ReadFrom (log : List Written) (r : ClaimRead) : Prop :=
  ∃ older, older <:+ log ∧ r.auto = lastValue older ∧
    ∀ p ∈ older, p.time ≤ r.readAt ∧ p.spells <:+ r.spells

structure Sound (worker : String) (s : Sys) : Prop where
  row : s.db.autoRow worker = some (lastValue s.log)
  chain : Chain s.log
  nodup : s.spells.Nodup
  written : ∀ p ∈ s.log, p.time ≤ s.clock ∧ p.spells <:+ s.spells
  reads : ∀ r ∈ s.reads, r.readAt ≤ s.clock ∧ r.spells <:+ s.spells ∧ ReadFrom s.log r

theorem autoOrders_of_row {db : Db} {worker : String} {v : Option AutoState}
    (row : db.autoRow worker = some v) : db.autoOrders worker = v := by
  obtain ⟨r, rowIs, autoIs⟩ := Option.map_eq_some_iff.mp row
  simp [Db.autoOrders, rowIs, autoIs]

/-- A read that finds itself on the row is of the newest value: no value comes back. -/
theorem ReadFrom.newest {log : List Written} {r : ClaimRead} (chain : Chain log)
    (of : ReadFrom log r) (held : r.auto = lastValue log) :
    ∀ p ∈ log, p.time ≤ r.readAt ∧ p.spells <:+ r.spells := by
  obtain ⟨older, suffix, was, facts⟩ := of
  suffices all : older = log by
    rw [← all]
    exact facts
  cases log with
  | nil => exact List.suffix_nil.mp suffix
  | cons e earlier =>
      rcases List.suffix_cons_iff.mp suffix with same | shorter
      · exact same
      · exfalso
        cases older with
        | nil =>
            rw [was] at held
            cases held
        | cons p rest =>
            have mem : p ∈ earlier := shorter.subset List.mem_cons_self
            have again : p.value = e.value := Option.some.inj (was.symm.trans held)
            exact chain.value_ne mem again

/-- A spell that begins with the very claim is too young for the rules. -/
theorem atRules_spell {s : Sys} {r : ClaimRead} {x : RuleInput} {now spell : Int}
    {kind : Option OrderKind} {next : AutoState} (chain : Chain s.log) (claim : AtRules s r x now)
    (newest : ∀ p ∈ s.log, p.time ≤ r.readAt) (held : r.auto = lastValue s.log)
    (spellIs : x.spell = some spell)
    (step : Step (autoOf x.row.autoOrders x.spell now) spell now kind next) :
    r.spells.head? = some spell := by
  have named : r.since = some spell ∨ spell = now := by
    have after := claim.spell.symm.trans spellIs
    unfold spellAfter at after
    split at after
    · exact .inl after
    · split at after
      · cases since : r.since with
        | none =>
            rw [since] at after
            exact .inr (Option.some.inj after).symm
        | some known =>
            rw [since] at after
            exact .inl after
      · cases after
      · exact .inl after
  rcases named with since | rfl
  · unfold ClaimRead.since at since
    split at since
    · exact since
    · cases since
  · -- Counts of a spell that begins now would have been written before now.
    exfalso
    rw [claim.auto, held, spellIs] at step
    by_cases none : (autoOf (lastValue s.log) (some spell) spell).restarts = 0
    · exact absurd (step.aged none) (lt_irrefl _)
    · cases logIs : s.log with
      | nil =>
          rw [logIs] at none
          exact none rfl
      | cons q older =>
          rw [logIs] at chain none
          have qHere : q.spell = some spell := by
            rw [← chain.value_spell]
            by_contra other
            apply none
            simp [lastValue, autoOf, other, AutoState.fresh]
          have began := chain.aged q List.mem_cons_self spell qHere
          have notAfter := newest q (by rw [logIs]; exact List.mem_cons_self)
          have inTime := claim.after
          omega

/-- What a claim writes over the value it read is one more link of the chain. -/
theorem Sound.link {errorClass : Option String → Option AgentVia → ErrorClass} {worker : String}
    {s : Sys} {r : ClaimRead} {x : RuleInput} {now : Int} {breakerHolds : Bool}
    {site : Option SiteRead} {p : Proposal} (sound : Sound worker s) (claim : AtRules s r x now)
    (proposed : autoOrder errorClass breakerHolds site x now 1 = some p)
    (held : r.auto = lastValue s.log) : Chain (⟨p.kind, now, r.spells, p.next⟩ :: s.log) := by
  obtain ⟨_, seen, readFrom⟩ := sound.reads r claim.read
  have newest := readFrom.newest sound.chain held
  obtain ⟨spell, spellIs, going, step⟩ := autoOrder_step proposed
  have head := atRules_spell sound.chain claim (fun p mem => (newest p mem).1) held spellIs step
  rw [claim.auto, held, spellIs] at going step
  refine ⟨sound.chain, ⟨spell, head, going, step⟩, sound.nodup.sublist seen.sublist, ?_⟩
  intro q mem
  exact ⟨le_trans (newest q mem).1 claim.after, (newest q mem).2⟩

theorem ReadFrom.cons {log : List Written} {r : ClaimRead} (of : ReadFrom log r) (e : Written) :
    ReadFrom (e :: log) r := by
  obtain ⟨older, suffix, was, facts⟩ := of
  exact ⟨older, suffix.trans (List.suffix_cons e log), was, facts⟩

/-- One more link leaves the rest of the run as it was. -/
theorem Sound.wrote {worker : String} {s : Sys} {r : ClaimRead} {x : RuleInput} {now : Int}
    {db' : Db} {kind : Option OrderKind} {next : AutoState} (sound : Sound worker s)
    (claim : AtRules s r x now) (row : db'.autoRow worker = some (some next))
    (chain : Chain (⟨kind, now, r.spells, next⟩ :: s.log)) :
    Sound worker { s with db := db', log := ⟨kind, now, r.spells, next⟩ :: s.log } where
  row := row
  chain := chain
  nodup := sound.nodup
  written := by
    intro p mem
    rcases List.mem_cons.mp mem with rfl | old
    · exact ⟨claim.past, (sound.reads r claim.read).2.1⟩
    · exact sound.written p old
  reads := by
    intro other mem
    obtain ⟨past, seen, readFrom⟩ := sound.reads other mem
    exact ⟨past, seen, readFrom.cons _⟩

theorem reach_sound {errorClass : Option String → Option AgentVia → ErrorClass} {worker : String}
    {s : Sys} (reached : Reach errorClass worker s) : Sound worker s := by
  induction reached with
  | start db clock row => exact ⟨row, trivial, List.nodup_nil, by simp, by simp⟩
  | tick later _ notBack ih =>
      refine ⟨ih.row, ih.chain, ih.nodup, ?_, ?_⟩
      · intro p mem
        exact ⟨le_trans (ih.written p mem).1 notBack, (ih.written p mem).2⟩
      · intro r mem
        obtain ⟨past, seen, readFrom⟩ := ih.reads r mem
        exact ⟨le_trans past notBack, seen, readFrom⟩
  | @begins s since _ _ new ih =>
      have longer : s.spells <:+ since :: s.spells := List.suffix_cons since s.spells
      refine ⟨ih.row, ih.chain, List.nodup_cons.mpr ⟨new, ih.nodup⟩, ?_, ?_⟩
      · intro p mem
        exact ⟨(ih.written p mem).1, (ih.written p mem).2.trans longer⟩
      · intro r mem
        obtain ⟨past, seen, readFrom⟩ := ih.reads r mem
        exact ⟨past, seen.trans longer, readFrom⟩
  | ends _ ih => exact ⟨ih.row, ih.chain, ih.nodup, ih.written, ih.reads⟩
  | @reads s _ ih =>
      refine ⟨ih.row, ih.chain, ih.nodup, ih.written, ?_⟩
      intro r mem
      rcases List.mem_cons.mp mem with rfl | old
      · exact ⟨le_refl _, List.suffix_refl _,
          ⟨s.log, List.suffix_refl _, autoOrders_of_row ih.row, ih.written⟩⟩
      · exact ih.reads r old
  | orders _ claim proposed asks ok ih =>
      have row := ih.row
      rw [← asks.worker] at row
      obtain ⟨held, after⟩ := issueOrder_auto row asks.rule asks.auto ok
      rw [asks.worker] at after
      exact ih.wrote claim after (ih.link claim proposed held.symm)
  | givesUp _ claim proposed held ih =>
      have same := held.symm.trans (autoOrders_of_row ih.row)
      refine ih.wrote claim (autoRow_setAuto ?_) (ih.link claim proposed same)
      rw [ih.row, same]
  | elsewhere db' _ same ih => exact ⟨same.trans ih.row, ih.chain, ih.nodup, ih.written, ih.reads⟩

/-! ## The bounds -/

/-- Over every day the rules order at most so many restarts and so many re-checks; in one spell at
most so many restarts, so far apart; and nothing after they gave up in it. -/
theorem automatic_orders_bounded {errorClass : Option String → Option AgentVia → ErrorClass}
    {worker : String} {s : Sys} (reached : Reach errorClass worker s) :
    (∀ window, Window.IsWindow day window →
      Window.countIn Written.time Written.isRestart window s.log ≤ maxPoolRestartsPerDay ∧
      Window.countIn Written.time Written.isRecheck window s.log ≤ maxPoolRechecksPerDay) ∧
    (∀ spell : Int,
      s.log.countP (fun e => e.isRestart && e.spell = some spell) ≤ maxPoolRestartsPerSpell) ∧
    (s.log.Pairwise fun later earlier => later.isRestart = true → earlier.isRestart = true →
      later.spell = earlier.spell → restartSpacingMin * minute ≤ later.time - earlier.time) ∧
    (s.log.Pairwise fun later earlier => earlier.isGiveUp = true → later.spell ≠ earlier.spell) := by
  have chain := (reach_sound reached).chain
  refine ⟨?_, chain.restarts_per_spell, chain.restarts_apart, chain.giveUp_last⟩
  intro window is
  exact ⟨chain.restarts_trailing.countIn_le is, chain.rechecks_trailing.countIn_le is⟩

/-! A spell that begins at 0 and a claim ten minutes into it. -/

def refusedClass (_ : Option String) (_ : Option AgentVia) : ErrorClass := .refused

def tenMinutesIn : RuleInput where
  row := ⟨false, [], some .direct, none, none, none⟩
  claim := ⟨some [.restart], none, false, none⟩
  status := some .error
  error := some "connection refused"
  spell := some 0
  instanceSince := some 0
  conflict := false
  needsAgent := true
  siblingAnswers := false
  host := false

def firstRestart : AutoState := (AutoState.fresh (some 0) []).restartedAt 600000

def firstRestartAsk : IssueAsk where
  worker := "w1"
  kind := .restart
  reason := "restart 1 of 2 in this spell"
  login := poolProject
  via := none
  rule := some "restart-1of2"
  unlessAgentOk := true
  site := none
  baselineAtIssue := none
  auto := some ⟨none, firstRestart⟩
  deliverTo := some ⟨"i1", some "i1"⟩
  task := none
  host := false
  resumed := none
  now := 600000
  lineStatus := .warn
  lineSummary := "w1: restart ordered by the pool"

def oneWorker : Db := ⟨[], fun _ => some ⟨false, none, none⟩, fun _ => none, []⟩

def tenMinutesRead : ClaimRead := ⟨none, [0], true, 600000⟩

def restartedOnce : Sys where
  db := afterInsert "wo_1" firstRestartAsk
    { oneWorker with orders := [newOrder "wo_1" firstRestartAsk] }
  spells := [0]
  failing := true
  clock := 600000
  reads := [tenMinutesRead]
  log := [⟨some .restart, 600000, [0], firstRestart⟩]

theorem restartedOnce_reached : Reach refusedClass "w1" restartedOnce := by
  have read : Reach refusedClass "w1" ⟨oneWorker, [0], true, 600000, [tenMinutesRead], []⟩ := by
    have begun := @Reach.begins refusedClass "w1" _ 0 (.start oneWorker 0 rfl) rfl (by decide)
    exact .reads (.tick 600000 begun (by decide))
  have claim : AtRules ⟨oneWorker, [0], true, 600000, [tenMinutesRead], []⟩ tenMinutesRead
      tenMinutesIn 600000 := ⟨List.mem_cons_self, by decide, by decide, rfl, rfl⟩
  have proposed : autoOrder refusedClass false none tenMinutesIn 600000 1 =
      some (.order .restart "restart-1of2" true firstRestart) := by decide
  exact .orders read claim proposed ⟨rfl, rfl, rfl, rfl, rfl⟩
    (issueOrder_eq_ok (by decide) (by decide) (by decide) (by decide))

theorem automatic_orders_bounded_restarted :
    Reach refusedClass "w1" restartedOnce ∧
      Window.countIn Written.time Written.isRestart (Set.Ico 0 (0 + day)) restartedOnce.log ≤ 3 ∧
      restartedOnce.log.countP (fun e => e.isRestart && e.spell = some 0) ≤ 2 := by
  obtain ⟨days, spells, _, _⟩ := automatic_orders_bounded restartedOnce_reached
  exact ⟨restartedOnce_reached, (days _ ⟨0, .inl rfl⟩).1, spells 0⟩

end OmarchyPool.WorkerOrders
