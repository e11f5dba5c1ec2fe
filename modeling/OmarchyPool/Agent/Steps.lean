/-
# OmarchyPool.Agent.Steps -- what a round's step, and so a tick, can do

A step of a round keeps the round going, counts a restart and keeps it going, ends the round, or
commits it (`Stepped`); only the last touches what the host trusts.  `owed` is how many restarts
a round under the brake may still count: a step that counts one owes one less.  With the moves
of the orders and of the target this is the whole of a tick (`acting_moves`, `workOf_stepped`).
-/
import OmarchyPool.Agent.Moves

namespace OmarchyPool.Agent

open OmarchyPool.Lib
open Relation (ReflTransGen)

set_option autoImplicit false

/-- How often the dispatcher may still be recreated from this step on: by the replace, and by its
revert's. -/
def restartsAhead : Step → Nat
  | .render | .lint | .plan | .pull | .replace .staging .stop => 2
  | .replace .staging _ | .guard _ | .commit | .revert _ | .replace .lastGood .stop => 1
  | .replace .lastGood _ | .idle => 0

/-- How many restarts of the dispatcher the round may still count. -/
def owed (r : Rollout) : Nat := if r.braked then restartsAhead r.step else 0

/-- The orders taken and the release last named. -/
structure SameRest (s t : State) : Prop where
  orders : t.orders = s.orders
  target : t.target = s.target

/-- The deeds of a guard. -/
def Guarding : Deed → Prop
  | .guardBegan _ _ _ | .sampled _ _ _ | .watched _ _ _ _ _ => True
  | _ => False

/-- What one step leaves of the state, and its deeds. -/
inductive Stepped (now : Int) (s : State) : State → List Deed → Prop where
  | kept {t : State} {deeds : List Deed} (trust : SameTrust s t) (brake : SameBrake s t)
      (rest : SameRest s t) (round : SameRound s.rollout t.rollout)
      (owes : owed t.rollout ≤ owed s.rollout)
      (idle : s.rollout.step = .idle → t.rollout = s.rollout)
      (guarding : ∀ d ∈ deeds, Guarding d) : Stepped now s t deeds
  | counted {t : State} {deeds : List Deed} (trust : SameTrust s t)
      (brake : t.brake = s.brake.record now [.restart])
      (rest : SameRest s t) (round : SameRound s.rollout t.rollout)
      (owes : owed t.rollout < owed s.rollout) (active : s.rollout.step ≠ .idle)
      (guarding : ∀ d ∈ deeds, Guarding d) : Stepped now s t (.restarted now :: deeds)
  | ended {t : State} (trust : SameTrust s t) (brake : SameBrake s t)
      (rest : SameRest s t) (isOver : t.rollout = .ended now) : Stepped now s t []
  | committed {t : State} {target : Release} (step : s.rollout.step = .commit)
      (target_eq : s.rollout.target = some target)
      (floor : t.floor = some (committedFloor s target))
      (minRelease : t.minRelease = s.minRelease) (revoked : t.revoked = s.revoked)
      (statementSeq : t.statementSeq = s.statementSeq)
      (vouched : t.vouched = s.vouched ∨ t.vouched = none) (applied : t.applied = some target)
      (brake : SameBrake s t) (rest : SameRest s t) (isOver : t.rollout = .ended now) :
      Stepped now s t [.committed target s.rollout.services]

section Steps

variable {cfg : Config} {host : Host} {disk : Disk} {s : State}

theorem stepped_stay (s : State) (now : Int) : Stepped now s s [] :=
  .kept (SameTrust.refl s) (SameBrake.refl s) ⟨rfl, rfl⟩ (SameRound.refl _) (le_refl _) (fun _ => rfl)
    (by simp)

theorem stepped_engineWait (s : State) (now : Int) {deeds : List Deed}
    (guarding : ∀ d ∈ deeds, Guarding d) : Stepped now s (engineWait s now) deeds := by
  have shape : ∃ round, engineWait s now = { s with round := round } := by
    unfold engineWait
    split
    · split
      · exact ⟨_, rfl⟩
      · exact ⟨s.round, rfl⟩
    · exact ⟨_, rfl⟩
  obtain ⟨round, shape⟩ := shape
  rw [shape]
  exact .kept ⟨rfl, rfl, rfl, rfl, rfl, rfl⟩ ⟨rfl, rfl, rfl⟩ ⟨rfl, rfl⟩ ⟨rfl, rfl, rfl, rfl, rfl⟩ (le_refl _)
    (fun _ => rfl) guarding

theorem stepped_finish (s : State) (now : Int) (outcome : Outcome) (fromRelease : Option Release) :
    Stepped now s (finish s now outcome fromRelease) [] :=
  .ended ⟨rfl, rfl, rfl, rfl, rfl, rfl⟩ ⟨rfl, rfl, rfl⟩ ⟨rfl, rfl⟩ rfl

/-- A step that goes on owes no more than the one it comes from. -/
theorem stepped_go {step : Step} (now : Int) {deeds : List Deed} (active : s.rollout.step ≠ .idle)
    (ahead : restartsAhead step ≤ restartsAhead s.rollout.step)
    (guarding : ∀ d ∈ deeds, Guarding d) : Stepped now s (go s now step) deeds := by
  refine .kept ⟨rfl, rfl, rfl, rfl, rfl, rfl⟩ ⟨rfl, rfl, rfl⟩ ⟨rfl, rfl⟩ ⟨rfl, rfl, rfl, rfl, rfl⟩ ?_
    (fun idle => absurd idle active) guarding
  show (if s.rollout.braked then restartsAhead step else 0) ≤
    if s.rollout.braked then restartsAhead s.rollout.step else 0
  split
  · exact ahead
  · exact le_refl 0

theorem render_stepped (pending : Option Target) (step : s.rollout.step = .render) :
    Stepped host.now s (render cfg host disk pending s).state
      (render cfg host disk pending s).deeds := by
  have active : s.rollout.step ≠ .idle := by rw [step]; exact fun same => nomatch same
  unfold render
  split
  · exact stepped_finish s _ _ _
  split
  · exact stepped_finish s _ _ _
  dsimp only
  split
  · exact stepped_finish s _ _ _
  split
  · exact stepped_go _ active (by rw [step]; exact le_refl _) (by simp)
  · exact stepped_finish s _ _ _

theorem lintStep_stepped (step : s.rollout.step = .lint) :
    Stepped host.now s (lintStep host disk s).state (lintStep host disk s).deeds := by
  have active : s.rollout.step ≠ .idle := by rw [step]; exact fun same => nomatch same
  unfold lintStep
  dsimp only
  split
  · exact stepped_finish s _ _ _
  · exact stepped_go _ active (by rw [step]; exact le_refl _) (by simp [Work.stay])
  · exact stepped_finish s _ _ _

/-- The plan's list of services is written down on the way. -/
theorem stepped_services {step : Step} (now : Int) (services : List String)
    (active : s.rollout.step ≠ .idle)
    (ahead : restartsAhead step ≤ restartsAhead s.rollout.step) :
    Stepped now s
      (go { s with rollout := { s.rollout with services := services } } now step) [] := by
  refine .kept ⟨rfl, rfl, rfl, rfl, rfl, rfl⟩ ⟨rfl, rfl, rfl⟩ ⟨rfl, rfl⟩ ⟨rfl, rfl, rfl, rfl, rfl⟩ ?_
    (fun idle => absurd idle active) (by simp)
  show (if s.rollout.braked then restartsAhead step else 0) ≤
    if s.rollout.braked then restartsAhead s.rollout.step else 0
  split
  · exact ahead
  · exact le_refl 0

theorem planAgainst_stepped {engine : Engine} {wanted : OrderedMap String String}
    {services : List String} (step : s.rollout.step = .plan) (units : List Container) :
    Stepped host.now s (planAgainst host engine wanted services s units).state
      (planAgainst host engine wanted services s units).deeds := by
  have active : s.rollout.step ≠ .idle := by rw [step]; exact fun same => nomatch same
  unfold planAgainst
  dsimp only
  split
  · exact stepped_services _ _ active (by rw [step]; decide)
  split
  · exact stepped_services _ _ active (by rw [step]; decide)
  · exact .ended ⟨rfl, rfl, rfl, rfl, rfl, rfl⟩ ⟨rfl, rfl, rfl⟩ ⟨rfl, rfl⟩ rfl
  · exact .ended ⟨rfl, rfl, rfl, rfl, rfl, rfl⟩ ⟨rfl, rfl, rfl⟩ ⟨rfl, rfl⟩ rfl

theorem plan_stepped (step : s.rollout.step = .plan) :
    Stepped host.now s (plan cfg host disk s).state (plan cfg host disk s).deeds := by
  unfold plan
  split
  · exact stepped_finish s _ _ _
  split
  · exact stepped_finish s _ _ _
  split
  · exact stepped_engineWait s _ (by simp [Work.stay])
  split
  · exact stepped_engineWait s _ (by simp [Work.stay])
  split
  · exact planAgainst_stepped step _
  · exact planAgainst_stepped step _
  · exact stepped_engineWait s _ (by simp [Work.stay])

theorem pull_stepped (step : s.rollout.step = .pull) :
    Stepped host.now s (pull cfg host disk s).state (pull cfg host disk s).deeds := by
  have active : s.rollout.step ≠ .idle := by rw [step]; exact fun same => nomatch same
  unfold pull
  split
  · exact stepped_finish s _ _ _
  split
  · exact stepped_engineWait s _ (by simp [Work.stay])
  split
  · split
    · exact stepped_stay s _
    · exact stepped_finish s _ _ _
    · exact stepped_finish s _ _ _
  · exact stepped_stay s _
  · exact stepped_go _ active (by rw [step]; exact le_refl _) (by simp [Work.stay])
  · exact stepped_finish s _ _ _
  · exact stepped_engineWait s _ (by simp [Work.stay])

/-! ## Replace and revert -/

theorem finishRevert_stepped :
    Stepped host.now s (finishRevert host disk s).state (finishRevert host disk s).deeds := by
  unfold finishRevert
  dsimp only
  split
  · exact .ended ⟨rfl, rfl, rfl, rfl, rfl, rfl⟩ ⟨rfl, rfl, rfl⟩ ⟨rfl, rfl⟩ rfl
  · exact .ended ⟨rfl, rfl, rfl, rfl, rfl, rfl⟩ ⟨rfl, rfl, rfl⟩ ⟨rfl, rfl⟩ rfl

theorem revert_stepped {why : String} (step : s.rollout.step = .revert why) :
    Stepped host.now s (revert host disk s why).state (revert host disk s why).deeds := by
  have active : s.rollout.step ≠ .idle := by rw [step]; exact fun same => nomatch same
  unfold revert
  split
  · refine .kept ⟨rfl, rfl, rfl, rfl, rfl, rfl⟩ ⟨rfl, rfl, rfl⟩ ⟨rfl, rfl⟩ ⟨rfl, rfl, rfl, rfl, rfl⟩ ?_
      (fun idle => absurd idle active) (by simp [Work.stay])
    show (if s.rollout.braked then restartsAhead (.replace .lastGood .stop) else 0) ≤
      if s.rollout.braked then restartsAhead s.rollout.step else 0
    rw [step]
    exact le_refl _
  · exact finishRevert_stepped

theorem failReplace_stepped {files : Files} {phase : Phase} (why : String)
    (step : s.rollout.step = .replace files phase) :
    Stepped host.now s (failReplace host disk s files why).state
      (failReplace host disk s files why).deeds := by
  have active : s.rollout.step ≠ .idle := by rw [step]; exact fun same => nomatch same
  unfold failReplace
  split
  · refine stepped_go _ active ?_ (by simp [Work.stay])
    rw [step]
    cases phase <;> simp [restartsAhead]
  · exact finishRevert_stepped

/-- Where a phase of a replace goes on to, one restart is behind it once the stop was sent. -/
theorem replacePhase_ahead {engine : Engine} {set : SetToml} {services : List String}
    {files : Files} {now : Int} {phase : Phase} {step : Step}
    (goes : replacePhase engine set services files now phase = .go step) :
    restartsAhead step + (if phase = .stop then 1 else 0) ≤
      restartsAhead (.replace files phase) := by
  cases phase with
  | stop =>
      simp only [replacePhase] at goes
      split at goes
      · cases goes
      · cases goes
        cases files <;> simp [restartsAhead]
  | drain since =>
      simp only [replacePhase, afterDrain] at goes
      split at goes
      · cases goes
      · cases goes
        cases files <;> exact le_refl _
      · cases goes
  | create since =>
      simp only [replacePhase] at goes
      split at goes
      · cases goes
        cases files <;> exact le_refl _
      · split at goes <;> cases goes
      · split at goes <;> cases goes
  | ready since =>
      simp only [replacePhase, afterReady] at goes
      split at goes
      · cases goes
      · split at goes
        · cases goes
          exact le_refl _
        · cases goes
      · split at goes <;> cases goes

theorem beginning_guarding (state : State) (step : Step) : ∀ d ∈ beginning state step, Guarding d := by
  intro d mem
  unfold beginning at mem
  split at mem
  · rw [List.mem_singleton.mp mem]
    trivial
  · cases mem

theorem replace_stepped {files : Files} {phase : Phase}
    (step : s.rollout.step = .replace files phase) :
    Stepped host.now s (replace cfg host disk s files phase).state
      (replace cfg host disk s files phase).deeds := by
  have active : s.rollout.step ≠ .idle := by rw [step]; exact fun same => nomatch same
  unfold replace
  split
  · exact failReplace_stepped _ step
  dsimp only
  split
  · exact stepped_engineWait s _ (by simp [Work.stay])
  split
  · rename_i next goes
    have ahead := replacePhase_ahead goes
    split
    · -- The stop was sent: one restart less is owed.
      rename_i sent
      rw [if_pos sent.1] at ahead
      refine .counted ⟨rfl, rfl, rfl, rfl, rfl, rfl⟩ rfl ⟨rfl, rfl⟩ ⟨rfl, rfl, rfl, rfl, rfl⟩ ?_ active
        (beginning_guarding s _)
      show (if s.rollout.braked then restartsAhead next else 0) <
        if s.rollout.braked then restartsAhead s.rollout.step else 0
      rw [if_pos sent.2, if_pos sent.2, step]
      omega
    · refine stepped_go _ active ?_ (beginning_guarding s _)
      rw [step]
      omega
  · exact stepped_stay s _
  · exact stepped_engineWait s _ (by simp [Work.stay])
  · exact failReplace_stepped _ step
  · exact finishRevert_stepped

/-! ## Guard and commit -/

theorem stepped_guardStays (g g' : Guard) {deeds : List Deed} (step : s.rollout.step = .guard g)
    (guarding : ∀ d ∈ deeds, Guarding d) : Stepped host.now s (guardStays s g') deeds := by
  refine .kept ⟨rfl, rfl, rfl, rfl, rfl, rfl⟩ ⟨rfl, rfl, rfl⟩ ⟨rfl, rfl⟩ ⟨rfl, rfl, rfl, rfl, rfl⟩ ?_
    (fun idle => by rw [step] at idle; cases idle) guarding
  show (if s.rollout.braked then restartsAhead (.guard g') else 0) ≤
    if s.rollout.braked then restartsAhead s.rollout.step else 0
  rw [step]
  exact le_refl _

theorem stepped_guardFails (g : Guard) (why : String) {deeds : List Deed}
    (step : s.rollout.step = .guard g) (guarding : ∀ d ∈ deeds, Guarding d) :
    Stepped host.now s (guardFails host s why) deeds :=
  stepped_go _ (by rw [step]; exact fun same => nomatch same) (by rw [step]; exact le_refl _) guarding

theorem guardPassed_stepped {g g' : Guard} {guardS : Nat} (step : s.rollout.step = .guard g) :
    Stepped host.now s (guardPassed host s g' guardS).state
      (guardPassed host s g' guardS).deeds := by
  unfold guardPassed
  split
  · refine stepped_go _ (by rw [step]; exact fun same => nomatch same)
      (by rw [step]; exact le_refl _) ?_
    intro d mem
    rcases List.mem_cons.mp mem with rfl | mem
    · trivial
    · rw [List.mem_singleton.mp mem]
      trivial
  · exact stepped_guardStays g g' step (by simp [Guarding])

theorem guardReady_stepped {engine : Engine} {g g' : Guard} {http : Option String} {guardS : Nat}
    {settling : Bool} (step : s.rollout.step = .guard g) :
    Stepped host.now s (guardReady host engine s g' http guardS settling).state
      (guardReady host engine s g' http guardS settling).deeds := by
  unfold guardReady
  split
  · exact guardPassed_stepped step
  split
  · exact guardPassed_stepped step
  · split
    · exact stepped_guardStays g g' step (by simp [Guarding])
    · exact stepped_guardFails g _ step (by simp [Guarding])
  · split
    · exact stepped_guardStays g g' step (by simp [Guarding])
    · exact stepped_guardFails g _ step (by simp [Guarding])
  · exact stepped_engineWait s _ (by simp [Guarding])

theorem guardSample_stepped {engine : Engine} {g : Guard} {set : SetToml} {services : List String}
    {u : Container} {exits : List Exit} (step : s.rollout.step = .guard g) :
    Stepped host.now s (guardSample host engine s g set services u exits).state
      (guardSample host engine s g set services u exits).deeds := by
  unfold guardSample
  dsimp only
  split
  · exact stepped_guardFails g _ step (by simp [Guarding])
  · exact stepped_guardStays g _ step (by simp [Guarding])
  · exact guardReady_stepped step

theorem guard_stepped {g : Guard} (step : s.rollout.step = .guard g) :
    Stepped host.now s (guard cfg host disk s g).state (guard cfg host disk s g).deeds := by
  unfold guard
  split
  · exact stepped_stay s _
  split
  · exact stepped_guardFails g _ step (by simp [Work.stay])
  split
  · exact stepped_engineWait s _ (by simp [Work.stay])
  split
  · exact stepped_guardFails g _ step (by simp [Work.stay])
  · exact stepped_engineWait s _ (by simp [Work.stay])
  split
  · exact guardSample_stepped step
  · exact guardSample_stepped step
  · exact stepped_engineWait s _ (by simp [Work.stay])

theorem commit_stepped (step : s.rollout.step = .commit) :
    Stepped host.now s (commit host disk s).state (commit host disk s).deeds := by
  have active : s.rollout.step ≠ .idle := by rw [step]; exact fun same => nomatch same
  unfold commit
  split
  · exact stepped_finish s _ _ _
  split
  · exact stepped_go _ active (by rw [step]; exact le_refl _) (by simp [Work.stay])
  · rename_i target known _ ops _
    refine .committed step known rfl rfl rfl rfl ?_ rfl ⟨rfl, rfl, rfl⟩ ⟨rfl, rfl⟩ rfl
    by_cases same : s.vouched = some (committedFloor s target)
    · exact Or.inl (if_pos same)
    · exact Or.inr (if_neg same)

theorem step_stepped (pending : Option Target) :
    Stepped host.now s (step cfg host disk pending s).state
      (step cfg host disk pending s).deeds := by
  unfold step
  split
  · exact stepped_stay s _
  · rename_i here; exact render_stepped pending here
  · rename_i here; exact lintStep_stepped here
  · rename_i here; exact plan_stepped here
  · rename_i here; exact pull_stepped here
  · rename_i here; exact replace_stepped here
  · rename_i here; exact guard_stepped here
  · rename_i here; exact commit_stepped here
  · rename_i here; exact revert_stepped here

end Steps

/-! ## Before the step: the orders, then the target and drift -/

/-- The orders a tick looks at: those of the pool's answer, or those still queued. -/
def ordersPut (w : World) (p : Process) : List Order :=
  if w.roundNow || w.due then
    match w.answer with
    | .ok s => s.orders
    | .noAnswer | .unauthorized => []
  else p.queue

/-- The settings a tick may restore. -/
def settingsPut (w : World) (p : Process) : Option Settings :=
  if w.roundNow || w.due then
    match w.answer with
    | .ok s => if p.state.settings.isSome then none else s.settings
    | .noAnswer | .unauthorized => none
  else none

/-- The restarts that what the tick puts before the agent may make it count. -/
def restartsAsked (w : World) (p : Process) : Nat :=
  (if (settingsPut w p).isSome then 1 else 0) + ((ordersPut w p).map Order.restarts).sum

/-- The release a tick follows: the one the pool's answer names, or the last one named. -/
def named (w : World) (p : Process) : Option Release :=
  if w.roundNow || w.due then
    match w.answer with
    | .ok s => s.target
    | .noAnswer | .unauthorized => none
  else p.state.target

/-- A move of the target, or one that does not matter. -/
inductive Move (cfg : Config) (now : Int) (named : Option Release) : Process → Process → Prop where
  | follow {p q : Process} (move : FollowMove cfg now named p q) : Move cfg now named p q
  | quiet {p q : Process} (quiet : Quiet p q) : Move cfg now named p q

section Ticks

variable {cfg : Config} {w : World}

theorem orderMoves_rollout {now : Int} {most : Nat} {p q : Process} (moves : OrderMoves now most p q) :
    q.state.rollout = p.state.rollout := by
  induction moves with
  | refl => rfl
  | quiet _ quiet ih => exact quiet.rollout.trans ih
  | counted _ _ _ _ _ _ ih => exact ih

theorem orderMoves_trust {now : Int} {most : Nat} {p q : Process} (moves : OrderMoves now most p q) :
    SameTrust p.state q.state := by
  induction moves with
  | refl => exact SameTrust.refl _
  | quiet _ quiet ih => exact ih.trans quiet.trust
  | counted _ _ _ _ _ _ ih => exact ih.trans ⟨rfl, rfl, rfl, rfl, rfl, rfl⟩

theorem orderMoves_target {now : Int} {most : Nat} {p q : Process} (moves : OrderMoves now most p q) :
    q.state.target = p.state.target := by
  induction moves with
  | refl => rfl
  | quiet _ quiet ih => exact quiet.target.trans ih
  | counted _ _ _ _ _ _ ih => exact ih

/-- The orders leave no other deeds than orders carried out and restarts counted. -/
theorem orderMoves_deeds {now : Int} {most : Nat} {p q : Process} (moves : OrderMoves now most p q) :
    ∃ more, q.deeds = p.deeds ++ more ∧
      ∀ d ∈ more, (∃ o t, d = .carried o t) ∨ d = .restarted now := by
  induction moves with
  | refl => exact ⟨[], (List.append_nil _).symm, by simp⟩
  | quiet _ quiet ih =>
      obtain ⟨more, deeds, known⟩ := ih
      obtain ⟨new, grows, carried⟩ := quiet.deeds
      refine ⟨more ++ new, by rw [grows, deeds, List.append_assoc], ?_⟩
      intro d mem
      exact (List.mem_append.mp mem).elim (known d) fun new => Or.inl (carried d new)
  | counted _ _ _ _ _ _ ih =>
      obtain ⟨more, deeds, known⟩ := ih
      refine ⟨more ++ [.restarted now], ?_, ?_⟩
      · rw [← List.append_assoc, ← deeds]
        rfl
      · intro d mem
        exact (List.mem_append.mp mem).elim (known d)
          fun new => Or.inr (List.mem_singleton.mp new)

theorem moves_of_follow {named : Option Release} {p q : Process}
    (moves : ReflTransGen (FollowMove cfg w.now named) p q) :
    ReflTransGen (Move cfg w.now named) p q :=
  moves.lift id fun _ _ move => .follow move

theorem takeUpdate_quiet (busy : Bool) (updates : List OrderId) (p : Process) :
    Quiet p (takeUpdate w busy updates p).1 ∧
      (takeUpdate w busy updates p).1.state.settings = p.state.settings := by
  unfold takeUpdate
  split
  · exact ⟨Quiet.refl p, rfl⟩
  dsimp only
  split
  · exact ⟨Quiet.refl p, rfl⟩
  · rename_i id _ _ _
    refine ⟨(quiet_liftQuarantine p).trans ((quiet_remember _ id).trans ?_), rfl⟩
    exact quiet_setState ⟨rfl, rfl, rfl, rfl, rfl, rfl⟩ ⟨rfl, rfl, rfl⟩ rfl rfl

theorem restoreSettings_moves (p : Process) (kept : Option Settings) :
    OrderMoves w.now (if (if p.state.settings.isSome then none else kept).isSome then 1 else 0) p
      (restoreSettings w p kept) := by
  generalize asked : (if (if p.state.settings.isSome then none else kept).isSome then 1 else 0) = most
  unfold restoreSettings
  split
  · exact .refl
  split
  · exact .refl
  rename_i want nothing
  split
  · exact .refl
  rename_i checked
  split
  · exact .refl
  rename_i changed _
  rw [if_neg nothing, Option.isSome_some, if_pos rfl] at asked
  subst asked
  have set : ∀ q : Process, Quiet q (q.setState { q.state with settings := some want }) :=
    fun q => quiet_setState ⟨rfl, rfl, rfl, rfl, rfl, rfl⟩ ⟨rfl, rfl, rfl⟩ rfl rfl
  dsimp only
  split
  · have room := Brake.checkRoom_ok checked .restart (by decide)
    exact (OrderMoves.one [.narrowing, .restart] (by decide) (by decide) (by decide) room).quiet (set _)
  · exact .of_quiet (set p)

theorem quiet_answers (ids : List OrderId) (p : Process) : Quiet p (ids.foldl answer p) := by
  induction ids generalizing p with
  | nil => exact Quiet.refl p
  | cons id rest ih =>
      rw [List.foldl_cons]
      exact (quiet_answer p id).trans (ih (answer p id))

theorem afterOrders_moves (p : Process) (rounds : List OrderId) (target : Option Release)
    (force : Option String) (targeted : Targeted p.state) :
    ReflTransGen (Move cfg w.now target) p (afterOrders cfg w p rounds target force) := by
  unfold afterOrders
  have follows := moves_of_follow (@followTarget_moves cfg w p target
    (force.or (rounds.head?.map fun id => "host order " ++ id)) targeted)
  exact follows.tail (.quiet (quiet_answers rounds _))

/-- The orders are taken first; only then is the target followed. -/
theorem attend_moves (p : Process) (targeted : Targeted p.state) :
    ∃ mid, OrderMoves w.now (restartsAsked w p) p mid ∧
      ReflTransGen (Move cfg w.now (named w p)) mid (attend cfg w p) := by
  unfold attend
  split
  · rename_i polled
    unfold poll
    split
    · rename_i s answered
      have follows : named w p = s.target := by
        unfold named
        rw [if_pos polled, answered]
      have asked : restartsAsked w p = (if (if p.state.settings.isSome then none else s.settings).isSome then 1 else 0) +
          (s.orders.map Order.restarts).sum := by
        unfold restartsAsked settingsPut ordersPut
        rw [if_pos polled, if_pos polled, answered]
      rw [follows, asked]
      unfold onState
      dsimp only
      obtain ⟨updated, settings⟩ := takeUpdate_quiet (w := w) (busy p.state) s.updates p
      generalize takeUpdate w (busy p.state) s.updates p = taken at updated settings
      have settle := restoreSettings_moves (w := w) taken.1 s.settings
      rw [settings] at settle
      have orders := takeEach_moves (w := w) (busy p.state) s.orders
        { restoreSettings w taken.1 s.settings with queue := s.orders }
      have queued : Quiet (restoreSettings w taken.1 s.settings)
          { restoreSettings w taken.1 s.settings with queue := s.orders } := quiet_of_same rfl rfl rfl rfl
      have first : OrderMoves w.now 0 p taken.1 := .of_quiet updated
      have settled := (first.trans settle).quiet queued
      rw [Nat.zero_add] at settled
      have chain := settled.trans orders
      refine ⟨_, chain, ?_⟩
      apply afterOrders_moves
      unfold Targeted
      rw [orderMoves_rollout chain]
      exact targeted
    · exact ⟨p, .refl, .single (.quiet (quiet_say p _ _))⟩
    · exact ⟨p, .refl, .single (.quiet (quiet_say p _ _))⟩
  · rename_i notPolled
    split
    · exact ⟨p, .refl, .refl⟩
    · have asked : restartsAsked w p = (p.queue.map Order.restarts).sum := by
        unfold restartsAsked settingsPut ordersPut
        rw [if_neg notPolled, if_neg notPolled]
        exact Nat.zero_add _
      rw [asked]
      have chain := takeEach_moves (w := w) (busy p.state) p.queue p
      have follows : named w p = (takeOrders w (busy p.state) p).1.state.target := by
        unfold named
        rw [if_neg notPolled]
        exact (orderMoves_target chain).symm
      refine ⟨_, chain, ?_⟩
      dsimp only
      split
      · exact .refl
      · rw [follows]
        apply afterOrders_moves
        unfold Targeted
        rw [orderMoves_rollout chain]
        exact targeted

theorem drift_moves {named : Option Release} (p : Process) (idle : p.state.rollout.step = .idle) :
    ReflTransGen (FollowMove cfg w.now named) p (drift cfg w p) := by
  have memory : ∀ q : Process, q.state = p.state → q.disk = p.disk → q.saved = p.saved →
      q.deeds = p.deeds → FollowMove cfg w.now named p q :=
    fun q state disk saved deeds =>
      .quiet (quiet_of_same state disk saved deeds) (by rw [state]) deeds
  unfold drift
  split
  · rename_i applied overlay runs _
    split
    · exact (ReflTransGen.single (memory { p with lastInputs := some w.inputs } rfl rfl rfl rfl)).tail
        (.begun _ (Or.inl idle) (Or.inl runs) (.runs runs))
    split
    · exact .refl
    dsimp only
    split
    · exact (ReflTransGen.single (memory { p with lastDrift := w.now } rfl rfl rfl rfl)).tail
        (.begun _ (Or.inl idle) (Or.inl runs) (.runs runs))
    · exact .single (memory { p with lastDrift := w.now } rfl rfl rfl rfl)
  · exact .refl

theorem reloadPending_quiet (p : Process) : Quiet p (reloadPending w p) := by
  unfold reloadPending
  split
  · split
    · exact Quiet.refl p
    · split
      · split
        · exact quiet_of_same rfl rfl rfl rfl
        · exact quiet_of_same rfl rfl rfl rfl
      · exact Quiet.refl p
      · exact Quiet.refl p
  · exact Quiet.refl p

/-- All a tick does before its round takes a step. -/
theorem acting_moves (p : Process) (targeted : Targeted p.state) :
    ∃ mid, OrderMoves w.now (restartsAsked w p) p mid ∧
      ReflTransGen (Move cfg w.now (named w p)) mid (acting cfg w p) := by
  unfold acting
  split
  · exact ⟨p, .refl, .refl⟩
  obtain ⟨mid, orders, follows⟩ := @attend_moves cfg w p targeted
  refine ⟨mid, orders, follows.trans ?_⟩
  dsimp only
  split
  · exact .refl
  split
  · rename_i idle
    exact (moves_of_follow (drift_moves _ idle)).tail (.quiet (reloadPending_quiet _))
  · exact .single (.quiet (reloadPending_quiet _))

theorem workOf_stepped (p : Process) :
    Stepped w.now p.state (workOf cfg w p).state (workOf cfg w p).deeds := by
  unfold workOf
  split
  · exact stepped_stay _ _
  · exact @step_stepped cfg w.toHost p.disk p.state _

theorem closing_quiet (p : Process) : Quiet p (closing w p) := by
  unfold closing
  split
  · exact Quiet.refl p
  unfold retireStep
  split
  · exact Quiet.refl p
  have ended : Quiet p (p.setState { p.state with orders := { p.state.orders with retire := none } }) :=
    quiet_setState ⟨rfl, rfl, rfl, rfl, rfl, rfl⟩ ⟨rfl, rfl, rfl⟩ rfl rfl
  dsimp only
  split
  · exact ended.trans (quiet_answer _ _)
  split
  · split
    · exact quiet_setState ⟨rfl, rfl, rfl, rfl, rfl, rfl⟩ ⟨rfl, rfl, rfl⟩ rfl rfl
    · exact ended.trans (quiet_answer _ _)
  · exact Quiet.refl p

/-- Before its step a tick leaves the round in flight alone, or it starts another in its place. -/
theorem moves_rollout {now : Int} {named : Option Release} {p q : Process}
    (moves : ReflTransGen (Move cfg now named) p q) :
    q.state.rollout = p.state.rollout ∨ q.state.rollout.step = .render ∧
      (p.state.rollout.step = .idle ∨ preemptible p.state.rollout.step = true) := by
  induction moves with
  | refl => exact Or.inl rfl
  | tail _ move ih =>
      have goesOn : ∀ {r s : Process}, s.state.rollout = r.state.rollout →
          (r.state.rollout = p.state.rollout ∨ r.state.rollout.step = .render ∧
            (p.state.rollout.step = .idle ∨ preemptible p.state.rollout.step = true)) →
          (s.state.rollout = p.state.rollout ∨ s.state.rollout.step = .render ∧
            (p.state.rollout.step = .idle ∨ preemptible p.state.rollout.step = true)) := by
        intro r s same before
        rw [same]
        exact before
      cases move with
      | quiet quiet => exact goesOn quiet.rollout ih
      | follow move =>
          cases move with
          | quiet quiet _ _ => exact goesOn quiet.rollout ih
          | noted _ => exact goesOn rfl ih
          | merged _ => exact goesOn rfl ih
          | accepted _ _ _ _ _ _ _ _ _ _ => exact goesOn rfl ih
          | changed _ _ _ => exact goesOn rfl ih
          | begun _ preempts _ _ =>
              refine Or.inr ⟨rfl, ?_⟩
              rcases ih with same | ⟨-, before⟩
              · rw [← same]
                exact preempts
              · exact before

theorem acting_rollout (p : Process) (targeted : Targeted p.state) :
    (acting cfg w p).state.rollout = p.state.rollout ∨
      (acting cfg w p).state.rollout.step = .render ∧
        (p.state.rollout.step = .idle ∨ preemptible p.state.rollout.step = true) := by
  obtain ⟨mid, orders, moves⟩ := @acting_moves cfg w p targeted
  rw [← orderMoves_rollout orders]
  exact moves_rollout moves

theorem moves_applied {now : Int} {named : Option Release} {p q : Process}
    (moves : ReflTransGen (Move cfg now named) p q) :
    q.state.applied = p.state.applied := by
  induction moves with
  | refl => rfl
  | tail _ move ih =>
      cases move with
      | quiet quiet => exact quiet.trust.applied.trans ih
      | follow move =>
          cases move with
          | quiet quiet _ _ => exact quiet.trust.applied.trans ih
          | noted _ => exact ih
          | merged _ => exact ih
          | accepted _ _ _ _ _ _ _ _ _ _ => exact ih
          | changed _ _ _ => exact ih
          | begun _ _ _ _ => exact ih

/-- Nothing a tick does before its step changes the running release. -/
theorem acting_applied (p : Process) (targeted : Targeted p.state) :
    (acting cfg w p).state.applied = p.state.applied := by
  obtain ⟨mid, orders, moves⟩ := @acting_moves cfg w p targeted
  exact (moves_applied moves).trans (orderMoves_trust orders).applied

theorem orderMoves_disk {now : Int} {most : Nat} {p q : Process} (moves : OrderMoves now most p q) :
    q.disk = p.disk := by
  induction moves with
  | refl => rfl
  | quiet _ quiet ih => exact quiet.disk.trans ih
  | counted _ _ _ _ _ _ ih => exact ih

theorem moves_disk {now : Int} {named : Option Release} {p q : Process}
    (moves : ReflTransGen (Move cfg now named) p q) : q.disk = p.disk := by
  induction moves with
  | refl => rfl
  | tail _ move ih =>
      cases move with
      | quiet quiet => exact quiet.disk.trans ih
      | follow move =>
          cases move with
          | quiet quiet _ _ => exact quiet.disk.trans ih
          | noted _ => exact ih
          | merged _ => exact ih
          | accepted _ _ _ _ _ _ _ _ _ _ => exact ih
          | changed _ _ _ => exact ih
          | begun _ _ _ _ => exact ih

/-- Only the round's step touches the disk. -/
theorem acting_disk (p : Process) (targeted : Targeted p.state) :
    (acting cfg w p).disk = p.disk := by
  obtain ⟨mid, orders, moves⟩ := @acting_moves cfg w p targeted
  exact (moves_disk moves).trans (orderMoves_disk orders)

end Ticks

end OmarchyPool.Agent
