/-
# OmarchyPool.Agent.Restarts -- how often the pool can make the dispatcher restart

A round to another release asks the brake, when it starts, for the two restarts it may need, and
counts each of them only when it happens.  What it may still count is `owed`.  As long as what the
orders of a tick may count (`restartsAsked`) has room beside both, what is counted and what is owed
stay within the limit together, and so every window of an hour does.  An order taken while a round
owes restarts looks at the counter alone and may use that room a second time.

Changes of release are counted where they are checked, so any two of them are a window apart
whatever comes between.  A round to the release of the last change is that change tried again,
and may start at any time.
-/
import Mathlib
import OmarchyPool.Agent.Stranded

namespace OmarchyPool.Agent

open OmarchyPool.Lib
open Relation (ReflTransGen)

set_option autoImplicit false

variable {cfg : Config}

/-! ## The history, out of the deeds -/

def Deed.restart? : Deed → Option Int
  | .restarted time => some time
  | _ => none

def Deed.change? : Deed → Option (Release × Int)
  | .changed target time => some (target, time)
  | _ => none

/-- The times of the restarts counted, oldest first. -/
def restartTimes (deeds : List Deed) : List Int := deeds.filterMap Deed.restart?

/-- The changes of release counted, oldest first. -/
def changes (deeds : List Deed) : List (Release × Int) := deeds.filterMap Deed.change?

def changeTimes (deeds : List Deed) : List Int := (changes deeds).map Prod.snd

/-- The release the last change went to. -/
def lastChange (deeds : List Deed) : Option Release := (changes deeds).getLast?.map Prod.fst

/-- A round under the brake goes to the release the last change before it went to. -/
def RoundsCounted (deeds : List Deed) : Prop :=
  ∀ before state found after, deeds = before ++ .started state found :: after →
    state.rollout.braked = true → state.rollout.target = lastChange before

/-- The deeds that are neither a restart, a change nor the start of a round. -/
def Plain (more : List Deed) : Prop :=
  ∀ d ∈ more, d.restart? = none ∧ d.change? = none ∧ ∀ state found, d ≠ .started state found

theorem Plain.restartTimes {deeds more : List Deed} (plain : Plain more) :
    restartTimes (deeds ++ more) = restartTimes deeds := by
  have none : more.filterMap Deed.restart? = [] :=
    List.filterMap_eq_nil_iff.mpr fun d mem => (plain d mem).1
  rw [Agent.restartTimes, List.filterMap_append, none, List.append_nil]
  rfl

/-- Only a new start can break it. -/
theorem RoundsCounted.append {deeds more : List Deed} (counted : RoundsCounted deeds)
    (none : ∀ d ∈ more, ∀ state found, d ≠ .started state found) :
    RoundsCounted (deeds ++ more) := by
  intro before state found after shape braked
  rcases List.append_eq_append_iff.mp shape with ⟨between, rfl, rest⟩ | ⟨between, whole, rest⟩
  · exact absurd rfl (none _ (by rw [rest]; simp) state found)
  · cases between with
    | nil =>
        rw [List.nil_append] at rest
        exact absurd rfl (none _ (by rw [← rest]; simp) state found)
    | cons first others =>
        injection rest with same others'
        subst same
        exact counted before state found others whole braked

/-! ## The restarts -/

/-- The restarts counted and owed at `now` are within the limit. -/
structure Limited (now : Int) (p : Process) : Prop where
  counts : Window.Counts restartsPerHour hourS now p.state.brake.restarts
    (restartTimes p.deeds).reverse
  room : p.state.brake.count .restart now + owed p.state.rollout ≤ restartsPerHour

theorem Limited.later {now time : Int} {p : Process} (limited : Limited now p)
    (notBack : now ≤ time) : Limited time p where
  counts := limited.counts.later notBack
  room := by
    have fewer : p.state.brake.count .restart time ≤ p.state.brake.count .restart now :=
      Window.within_le_of_le notBack limited.counts.kept_past
    have room := limited.room
    omega

/-- Nothing was counted, and no more is owed. -/
theorem Limited.of_same {now : Int} {p q : Process} (limited : Limited now p) {more : List Deed}
    (deeds : q.deeds = p.deeds ++ more) (plain : Plain more)
    (restarts : q.state.brake.restarts = p.state.brake.restarts)
    (owes : owed q.state.rollout ≤ owed p.state.rollout) : Limited now q where
  counts := by
    rw [deeds, plain.restartTimes, restarts]
    exact limited.counts
  room := by
    have same : q.state.brake.count .restart now = p.state.brake.count .restart now := by
      show Window.within _ now q.state.brake.restarts = Window.within _ now p.state.brake.restarts
      rw [restarts]
    have room := limited.room
    omega

theorem plain_carried {more : List Deed} (carried : ∀ d ∈ more, ∃ o t, d = .carried o t) :
    Plain more := by
  intro d mem
  obtain ⟨o, t, rfl⟩ := carried d mem
  exact ⟨rfl, rfl, fun _ _ same => by cases same⟩

theorem plain_guarding {more : List Deed} (guarding : ∀ d ∈ more, Guarding d) : Plain more := by
  intro d mem
  have here := guarding d mem
  cases d with
  | guardBegan _ _ _ => exact ⟨rfl, rfl, fun _ _ same => by cases same⟩
  | sampled _ _ _ => exact ⟨rfl, rfl, fun _ _ same => by cases same⟩
  | watched _ _ _ _ _ => exact ⟨rfl, rfl, fun _ _ same => by cases same⟩
  | _ => exact here.elim

theorem plain_nil : Plain [] := by
  intro d mem
  cases mem

theorem Limited.quiet {now : Int} {p q : Process} (limited : Limited now p) (quiet : Quiet p q) :
    Limited now q := by
  obtain ⟨more, deeds, carried⟩ := quiet.deeds
  refine limited.of_same deeds (plain_carried carried) quiet.brake.restarts ?_
  rw [quiet.rollout]

/-- One restart more is counted, and what was owed is one less, or there was room beside it. -/
theorem Limited.counted {now : Int} {p q : Process} (limited : Limited now p) {more : List Deed}
    (deeds : q.deeds = p.deeds ++ .restarted now :: more) (plain : Plain more)
    (restarts : q.state.brake.restarts = Window.record hourS now p.state.brake.restarts)
    (room : p.state.brake.count .restart now + owed q.state.rollout < restartsPerHour) :
    Limited now q := by
  have fits : Window.within hourS now p.state.brake.restarts < restartsPerHour :=
    lt_of_le_of_lt (Nat.le_add_right _ _) room
  have times : (restartTimes q.deeds).reverse = now :: (restartTimes p.deeds).reverse := by
    have split : p.deeds ++ .restarted now :: more = (p.deeds ++ [.restarted now]) ++ more := by simp
    rw [deeds, split, plain.restartTimes]
    simp [restartTimes, Deed.restart?]
  refine ⟨?_, ?_⟩
  · rw [times, restarts]
    exact limited.counts.record fits
  · have one := limited.counts.within_record
    have here : q.state.brake.count .restart now =
        Window.within hourS now (Window.record hourS now p.state.brake.restarts) := by
      show Window.within _ now q.state.brake.restarts = _
      rw [restarts]
      rfl
    have was : p.state.brake.count .restart now = Window.within hourS now p.state.brake.restarts :=
      rfl
    omega

/-- What the orders may count has room beside what the round may still count. -/
theorem limited_orderMoves {now : Int} {most : Nat} {p q : Process} (limited : Limited now p)
    (fits : owed p.state.rollout = 0 ∨
      p.state.brake.count .restart now + owed p.state.rollout + most ≤ restartsPerHour)
    (moves : OrderMoves now most p q) :
    Limited now q ∧ q.state.brake.count .restart now ≤ p.state.brake.count .restart now + most := by
  induction moves with
  | refl => exact ⟨limited, Nat.le_add_right _ _⟩
  | @quiet most p b r _ quiet ih =>
      obtain ⟨before, counted⟩ := ih limited fits
      have same : r.state.brake.count .restart now = b.state.brake.count .restart now :=
        congrArg (Window.within hourS now) quiet.brake.restarts
      exact ⟨before.quiet quiet, same.trans_le counted⟩
  | @counted most p b moves asks once asked noRelease room ih =>
      obtain ⟨before, counted⟩ := ih limited (fits.imp_right fun fits => by omega)
      have recorded : (b.state.brake.record now asks).restarts =
          Window.record hourS now b.state.brake.restarts := by
        have times := Brake.times_record b.state.brake now asks once .restart
        rw [if_pos asked] at times
        exact times
      have owes := congrArg owed (orderMoves_rollout moves)
      refine ⟨before.counted (q := recordRestart b now asks) rfl plain_nil recorded ?_, ?_⟩
      · show b.state.brake.count .restart now + owed b.state.rollout < restartsPerHour
        omega
      · have one := before.counts.within_record
        have here : (recordRestart b now asks).state.brake.count .restart now =
            Window.within hourS now (Window.record hourS now b.state.brake.restarts) :=
          congrArg (Window.within hourS now) recorded
        have was : b.state.brake.count .restart now = Window.within hourS now b.state.brake.restarts := rfl
        omega

theorem limited_follow {now : Int} {named : Option Release} {p q : Process}
    (limited : Limited now p) (move : FollowMove cfg now named p q) : Limited now q := by
  cases move with
  | quiet quiet _ _ => exact limited.quiet quiet
  | noted _ => exact ⟨limited.counts, limited.room⟩
  | merged _ => exact ⟨limited.counts, limited.room⟩
  | accepted _ _ _ _ _ _ _ _ _ _ =>
      refine limited.of_same rfl ?_ rfl (le_refl _)
      intro d mem
      rw [List.mem_singleton.mp mem]
      exact ⟨rfl, rfl, fun _ _ same => by cases same⟩
  | changed target _ _ =>
      have times : restartTimes (p.deeds ++ [.changed target now]) = restartTimes p.deeds := by
        simp [restartTimes, Deed.restart?]
      refine ⟨?_, limited.room⟩
      show Window.Counts restartsPerHour hourS now p.state.brake.restarts
        (restartTimes (p.deeds ++ [.changed target now])).reverse
      rw [times]
      exact limited.counts
  | @begun target rollback braked found why _ _ grounds =>
      have times : restartTimes (beginRound p now target rollback braked found why).deeds =
          restartTimes p.deeds := by
        simp [beginRound, Process.did, Process.setState, restartTimes, Deed.restart?]
      refine ⟨?_, ?_⟩
      · rw [times]
        exact limited.counts
      · show p.state.brake.count .restart now +
          (if braked then restartsAhead .render else 0) ≤ restartsPerHour
        have few : p.state.brake.count .restart now ≤ restartsPerHour :=
          le_trans (Nat.le_add_right _ _) limited.room
        -- A round under the brake found room for both its restarts.
        cases grounds with
        | runs _ => exact few
        | rolledBack _ _ _ => exact few
        | admitted _ _ _ room _ =>
            cases braked with
            | false => exact few
            | true => exact room rfl

theorem limited_moves {now : Int} {named : Option Release} {p q : Process}
    (limited : Limited now p) (moves : ReflTransGen (Move cfg now named) p q) : Limited now q := by
  induction moves with
  | refl => exact limited
  | tail _ move ih =>
      cases move with
      | quiet quiet => exact ih.quiet quiet
      | follow move => exact limited_follow ih move

theorem owed_ended (now : Int) : owed (.ended now) = 0 := rfl

theorem limited_stepped {now : Int} {p : Process} {work : Work} (limited : Limited now p)
    (stepped : Stepped now p.state work.state work.deeds) : Limited now (performed p work) := by
  generalize shape : work.deeds = deeds at stepped
  have deedsAre : (performed p work).deeds = p.deeds ++ deeds := by rw [← shape]; rfl
  have stateIs : (performed p work).state = work.state := rfl
  rw [← stateIs] at stepped
  generalize performed p work = q at deedsAre stepped
  cases stepped with
  | kept _ brake _ _ owes _ guarding =>
      exact limited.of_same deedsAre (plain_guarding guarding) brake.restarts owes
  | counted _ brake _ _ owes _ guarding =>
      have recorded : q.state.brake.restarts = Window.record hourS now p.state.brake.restarts := by
        rw [brake]
        rfl
      refine limited.counted deedsAre (plain_guarding guarding) recorded ?_
      have room := limited.room
      omega
  | ended _ brake _ isOver =>
      refine limited.of_same deedsAre plain_nil brake.restarts ?_
      rw [isOver, owed_ended]
      exact Nat.zero_le _
  | committed _ _ _ _ _ _ _ _ brake _ isOver =>
      refine limited.of_same deedsAre ?_ brake.restarts ?_
      · intro d mem
        rw [List.mem_singleton.mp mem]
        exact ⟨rfl, rfl, fun _ _ same => by cases same⟩
      · rw [isOver, owed_ended]
        exact Nat.zero_le _

/-- A step timed again, or a guard begun again, owes what it owed. -/
theorem owed_resume (s : State) (now : Int) : owed (resume s now).rollout = owed s.rollout := by
  unfold resume owed
  split
  · rename_i files _ step
    rw [step]
    cases files <;> rfl
  · rename_i files _ step
    rw [step]
    cases files <;> rfl
  · rename_i step
    rw [step]
    rfl
  · rfl

theorem brake_resume (s : State) (now : Int) : (resume s now).brake = s.brake := by
  unfold resume
  split <;> rfl

/-! ## The changes of release -/

structure Spaced (now : Int) (p : Process) : Prop where
  counts : Window.Counts 1 releaseGapS now p.state.brake.releases (changeTimes p.deeds).reverse
  last : p.state.brake.lastRelease = lastChange p.deeds
  rounds : RoundsCounted p.deeds

theorem Spaced.later {now time : Int} {p : Process} (spaced : Spaced now p)
    (notBack : now ≤ time) : Spaced time p :=
  ⟨spaced.counts.later notBack, spaced.last, spaced.rounds⟩

/-- No change was counted and no round started. -/
theorem Spaced.of_same {now : Int} {p q : Process} (spaced : Spaced now p) {more : List Deed}
    (deeds : q.deeds = p.deeds ++ more)
    (plain : ∀ d ∈ more, d.change? = none ∧ ∀ state found, d ≠ .started state found)
    (releases : q.state.brake.releases = p.state.brake.releases)
    (last : q.state.brake.lastRelease = p.state.brake.lastRelease) : Spaced now q := by
  have none : more.filterMap Deed.change? = [] :=
    List.filterMap_eq_nil_iff.mpr fun d mem => (plain d mem).1
  have same : changes q.deeds = changes p.deeds := by
    rw [deeds, changes, List.filterMap_append, none, List.append_nil]
    rfl
  refine ⟨?_, ?_, ?_⟩
  · rw [releases, changeTimes, same]
    exact spaced.counts
  · rw [last, lastChange, same]
    exact spaced.last
  · rw [deeds]
    exact spaced.rounds.append fun d mem => (plain d mem).2

theorem Plain.noChange {more : List Deed} (plain : Plain more) :
    ∀ d ∈ more, d.change? = none ∧ ∀ state found, d ≠ .started state found :=
  fun d mem => (plain d mem).2

theorem noChange_restarted (now : Int) {more : List Deed} (plain : Plain more) :
    ∀ d ∈ .restarted now :: more, d.change? = none ∧ ∀ state found, d ≠ .started state found := by
  intro d mem
  rcases List.mem_cons.mp mem with rfl | later
  · exact ⟨rfl, fun _ _ same => by cases same⟩
  · exact (plain d later).2

theorem Spaced.quiet {now : Int} {p q : Process} (spaced : Spaced now p) (quiet : Quiet p q) :
    Spaced now q := by
  obtain ⟨more, deeds, carried⟩ := quiet.deeds
  exact spaced.of_same deeds (plain_carried carried).noChange quiet.brake.releases
    quiet.brake.lastRelease

theorem spaced_orderMoves {now : Int} {most : Nat} {p q : Process} (spaced : Spaced now p)
    (moves : OrderMoves now most p q) : Spaced now q := by
  induction moves with
  | refl => exact spaced
  | quiet _ quiet ih => exact (ih spaced).quiet quiet
  | @counted most p b _ asks once _ noRelease _ ih =>
      have kept : (b.state.brake.record now asks).releases = b.state.brake.releases := by
        have times := Brake.times_record b.state.brake now asks once .release
        rw [if_neg noRelease] at times
        exact times
      exact (ih spaced).of_same (q := recordRestart b now asks) rfl (noChange_restarted now plain_nil) kept
        (Brake.lastRelease_record _ _ _)

theorem spaced_follow {now : Int} {named : Option Release} {p q : Process} (spaced : Spaced now p)
    (move : FollowMove cfg now named p q) : Spaced now q := by
  cases move with
  | quiet quiet _ _ => exact spaced.quiet quiet
  | noted _ => exact ⟨spaced.counts, spaced.last, spaced.rounds⟩
  | merged _ => exact ⟨spaced.counts, spaced.last, spaced.rounds⟩
  | accepted _ _ _ _ _ _ _ _ _ _ =>
      refine spaced.of_same rfl ?_ rfl rfl
      intro d mem
      rw [List.mem_singleton.mp mem]
      exact ⟨rfl, fun _ _ same => by cases same⟩
  | changed target room _ =>
      have grown : changes (p.deeds ++ [.changed target now]) = changes p.deeds ++ [(target, now)] := by
        simp [changes, Deed.change?]
      refine ⟨?_, ?_, ?_⟩
      · show Window.Counts 1 releaseGapS now (Window.record releaseGapS now p.state.brake.releases)
          (changeTimes (p.deeds ++ [.changed target now])).reverse
        have times : (changeTimes (p.deeds ++ [.changed target now])).reverse =
            now :: (changeTimes p.deeds).reverse := by
          rw [changeTimes, grown]
          simp [changeTimes]
        rw [times]
        exact spaced.counts.record room
      · show some target = lastChange (p.deeds ++ [.changed target now])
        rw [lastChange, grown, List.getLast?_concat]
        rfl
      · refine spaced.rounds.append ?_
        intro d mem
        rw [List.mem_singleton.mp mem]
        exact fun _ _ same => by cases same
  | @begun target rollback braked found why _ _ grounds =>
      have same : changes (beginRound p now target rollback braked found why).deeds =
          changes p.deeds := by
        simp [beginRound, Process.did, Process.setState, changes, Deed.change?]
      refine ⟨?_, ?_, ?_⟩
      · rw [changeTimes, same]
        exact spaced.counts
      · rw [lastChange, same]
        exact spaced.last
      · intro before state found' after shape isBraked
        rcases List.eq_nil_or_concat after with rfl | ⟨init, last, rfl⟩
        · -- The start that was just written down.
          obtain ⟨sameDeeds, started⟩ := List.append_inj' shape rfl
          subst sameDeeds
          injection started with started
          injection started with state_eq
          rw [← state_eq] at isBraked ⊢
          have brakedIs : braked = true := isBraked
          cases grounds with
          | runs _ => cases brakedIs
          | rolledBack _ _ _ => cases brakedIs
          | admitted _ _ _ _ counted =>
              show some target = lastChange p.deeds
              rw [← spaced.last, counted brakedIs]
        · have inner : p.deeds = before ++ .started state found' :: init := by
            rw [List.concat_eq_append, ← List.cons_append, ← List.append_assoc] at shape
            exact (List.append_inj' shape rfl).1
          exact spaced.rounds before state found' init inner isBraked

theorem spaced_moves {now : Int} {named : Option Release} {p q : Process} (spaced : Spaced now p)
    (moves : ReflTransGen (Move cfg now named) p q) : Spaced now q := by
  induction moves with
  | refl => exact spaced
  | tail _ move ih =>
      cases move with
      | quiet quiet => exact ih.quiet quiet
      | follow move => exact spaced_follow ih move

theorem spaced_stepped {now : Int} {p : Process} {work : Work} (spaced : Spaced now p)
    (stepped : Stepped now p.state work.state work.deeds) : Spaced now (performed p work) := by
  generalize shape : work.deeds = deeds at stepped
  have deedsAre : (performed p work).deeds = p.deeds ++ deeds := by rw [← shape]; rfl
  have stateIs : (performed p work).state = work.state := rfl
  rw [← stateIs] at stepped
  generalize performed p work = q at deedsAre stepped
  cases stepped with
  | kept _ brake _ _ _ _ guarding =>
      exact spaced.of_same deedsAre (plain_guarding guarding).noChange brake.releases
        brake.lastRelease
  | counted _ brake _ _ _ _ guarding =>
      refine spaced.of_same deedsAre (noChange_restarted now (plain_guarding guarding)) ?_ ?_
      · rw [brake]
        rfl
      · rw [brake]
        rfl
  | ended _ brake _ _ =>
      exact spaced.of_same deedsAre plain_nil.noChange brake.releases brake.lastRelease
  | committed _ _ _ _ _ _ _ _ brake _ _ =>
      refine spaced.of_same deedsAre ?_ brake.releases brake.lastRelease
      intro d mem
      rw [List.mem_singleton.mp mem]
      exact ⟨rfl, fun _ _ same => by cases same⟩

/-! ## Over a run -/

/-- Ticks that save what they did and restarts between them, on a clock that does not go back. -/
def Timed : Int → List Event → Prop
  | _, [] => True
  | now, .tick w :: rest => now ≤ w.now ∧ Timed w.now rest
  | now, .restart time :: rest => now ≤ time ∧ Timed time rest
  | _, .unsaved _ _ :: _ | _, .dies _ _ _ :: _ => False

/-- The round in flight may still count restarts of its own, and beside them and those of the hour
there is no room for what the tick puts before the agent. -/
def Disturbs (p : Process) : Event → Prop
  | .tick w => owed p.state.rollout ≠ 0 ∧
      restartsPerHour < p.state.brake.count .restart w.now + owed p.state.rollout + restartsAsked w p
  | .unsaved _ _ | .dies _ _ _ | .restart _ => False

/-- The room a round asked for is left to it. -/
def Reserved (cfg : Config) : Process → List Event → Prop
  | _, [] => True
  | p, e :: rest => ¬ Disturbs p e ∧ Reserved cfg (p.next cfg e) rest

/-- `state.json` has the brake of the state in memory, and a round that owes as much. -/
structure Kept (p : Process) : Prop where
  brake : p.saved.brake = p.state.brake
  owed : owed p.saved.rollout = owed p.state.rollout

theorem kept_restarted (p : Process) (time : Int) : Kept (restarted time p) :=
  ⟨(brake_resume p.saved time).symm, (owed_resume p.saved time).symm⟩

theorem Limited.restarted {now time : Int} {p : Process} (limited : Limited now p) (kept : Kept p)
    (notBack : now ≤ time) : Limited time (restarted time p) := by
  have later := limited.later notBack
  have brakeIs : (Agent.restarted time p).state.brake = p.state.brake :=
    (brake_resume p.saved time).trans kept.brake
  refine later.of_same (List.append_nil _).symm plain_nil (by rw [brakeIs]) ?_
  show owed (resume p.saved time).rollout ≤ _
  rw [owed_resume, kept.owed]

theorem Spaced.restarted {now time : Int} {p : Process} (spaced : Spaced now p) (kept : Kept p)
    (notBack : now ≤ time) : Spaced time (restarted time p) := by
  have brakeIs : (Agent.restarted time p).state.brake = p.state.brake :=
    (brake_resume p.saved time).trans kept.brake
  exact (spaced.later notBack).of_same (List.append_nil _).symm plain_nil.noChange (by rw [brakeIs])
    (by rw [brakeIs])

theorem ticked_limited {w : World} {p : Process} (trusted : Trusted cfg p)
    (limited : Limited w.now p) (undisturbed : ¬ Disturbs p (.tick w)) :
    Limited w.now (ticked cfg w p) := by
  obtain ⟨mid, orders, moves⟩ := @acting_moves cfg w p trusted.state.targeted
  have fits : owed p.state.rollout = 0 ∨
      p.state.brake.count .restart w.now + owed p.state.rollout + restartsAsked w p ≤ restartsPerHour := by
    by_contra short
    rw [not_or, Nat.not_le] at short
    exact undisturbed short
  have acted := limited_moves (limited_orderMoves limited fits orders).1 moves
  have stepped := limited_stepped acted (@workOf_stepped cfg w (acting cfg w p))
  exact stepped.quiet (closing_quiet _)

theorem ticked_spaced {w : World} {p : Process} (trusted : Trusted cfg p)
    (spaced : Spaced w.now p) : Spaced w.now (ticked cfg w p) := by
  obtain ⟨mid, orders, moves⟩ := @acting_moves cfg w p trusted.state.targeted
  have acted := spaced_moves (spaced_orderMoves spaced orders) moves
  have stepped := spaced_stepped acted (@workOf_stepped cfg w (acting cfg w p))
  exact stepped.quiet (closing_quiet _)

theorem limited_run {now : Int} {p : Process} (trusted : Trusted cfg p) (kept : Kept p)
    (limited : Limited now p) {events : List Event} (timed : Timed now events)
    (reserved : Reserved cfg p events) : ∃ last, Limited last (p.run cfg events) := by
  induction events generalizing now p with
  | nil => exact ⟨now, limited⟩
  | cons e rest ih =>
      have next := trusted_next trusted e
      cases e with
      | tick w =>
          have here := ticked_limited trusted (limited.later timed.1) reserved.1
          exact ih next ⟨rfl, rfl⟩ ⟨here.counts, here.room⟩ timed.2 reserved.2
      | restart time =>
          exact ih next (kept_restarted p time) (limited.restarted kept timed.1) timed.2 reserved.2
      | unsaved w done => exact timed.elim
      | dies w done time => exact timed.elim

theorem spaced_run {now : Int} {p : Process} (trusted : Trusted cfg p) (kept : Kept p)
    (spaced : Spaced now p) {events : List Event} (timed : Timed now events) :
    ∃ last, Spaced last (p.run cfg events) := by
  induction events generalizing now p with
  | nil => exact ⟨now, spaced⟩
  | cons e rest ih =>
      have next := trusted_next trusted e
      cases e with
      | tick w =>
          have here := ticked_spaced trusted (spaced.later timed.1)
          exact ih next ⟨rfl, rfl⟩ ⟨here.counts, here.last, here.rounds⟩ timed.2
      | restart time =>
          exact ih next (kept_restarted p time) (spaced.restarted kept timed.1) timed.2
      | unsaved w done => exact timed.elim
      | dies w done time => exact timed.elim

/-- On a clock that does not go back: where the room a round asked for is left to it, every hour
has at most `restartsPerHour` restarts; and, whatever is asked in between, the changes of release
are ten minutes apart, and a round under the brake goes to the release of the last of them. -/
theorem brake_bounds_runs (cfg : Config) (now : Int) (events : List Event)
    (timed : Timed now events) :
    (Reserved cfg Process.fresh events → ∀ start,
      (restartTimes (Process.fresh.run cfg events).deeds).countP
        (fun time => decide (start ≤ time) && decide (time < start + hourS)) ≤ restartsPerHour) ∧
      ((changeTimes (Process.fresh.run cfg events).deeds).Pairwise fun earlier later =>
        earlier + releaseGapS ≤ later) ∧
      RoundsCounted (Process.fresh.run cfg events).deeds := by
  have kept : Kept Process.fresh := ⟨rfl, rfl⟩
  refine ⟨?_, ?_⟩
  · intro reserved start
    have limited : Limited now Process.fresh := ⟨Window.counts_nil _ _ _, Nat.zero_le _⟩
    obtain ⟨last, limited⟩ := limited_run trusted_fresh kept limited timed reserved
    have window := limited.counts.paced.window_le start
    rw [List.countP_reverse] at window
    exact window
  · have fresh : Spaced now Process.fresh := by
      refine ⟨Window.counts_nil _ _ _, rfl, ?_⟩
      intro before state found after shape
      exact absurd shape (by simp [Process.fresh])
    obtain ⟨last, spaced⟩ := spaced_run trusted_fresh kept fresh timed
    exact ⟨List.pairwise_reverse.mp spaced.counts.paced.apart, spaced.rounds⟩

/-! ## Runs on the host with one service -/

instance (p : Process) (e : Event) : Decidable (Disturbs p e) :=
  match e with
  | .tick w => inferInstanceAs (Decidable (owed p.state.rollout ≠ 0 ∧
      restartsPerHour < p.state.brake.count .restart w.now + owed p.state.rollout + restartsAsked w p))
  | .unsaved _ _ | .dies _ _ _ | .restart _ => inferInstanceAs (Decidable False)

instance decidableReserved (cfg : Config) :
    (p : Process) → (events : List Event) → Decidable (Reserved cfg p events)
  | _, [] => inferInstanceAs (Decidable True)
  | p, e :: rest =>
      have := decidableReserved cfg (p.next cfg e) rest
      inferInstanceAs (Decidable (¬ Disturbs p e ∧ Reserved cfg (p.next cfg e) rest))

instance decidableTimed : (now : Int) → (events : List Event) → Decidable (Timed now events)
  | _, [] => inferInstanceAs (Decidable True)
  | now, .tick w :: rest =>
      have := decidableTimed w.now rest
      inferInstanceAs (Decidable (now ≤ w.now ∧ Timed w.now rest))
  | now, .restart time :: rest =>
      have := decidableTimed time rest
      inferInstanceAs (Decidable (now ≤ time ∧ Timed time rest))
  | _, .unsaved _ _ :: _ => inferInstanceAs (Decidable False)
  | _, .dies _ _ _ :: _ => inferInstanceAs (Decidable False)

/-- The pool names `release` and orders a new token, on a host where nothing runs yet. -/
def rotating (now : Int) (release : Release) (id : OrderId) : World :=
  { calmWorld now with
    engine := some { calmEngine with observe := .yes [] }
    due := true
    answer := .ok ⟨some release, [], [⟨id, .rotateToken, some 10000⟩], none, Nat.zero_le _, one_le_maxOrders⟩
    token := true }

/-- Four tokens, then a round that owes two restarts. -/
def fourTokens : List Event :=
  firstRound (vX 1 0 0) ++
    [.tick (rotating 100 (vX 1 0 0) "a"), .tick (rotating 110 (vX 1 0 0) "b"),
      .tick (rotating 120 (vX 1 0 0) "c"), .tick (rotating 130 (vX 1 0 0) "d"),
      .tick (naming 200 (vX 2 0 0))]

/-- Two more tokens before the round's replace: the room it asked for is gone. -/
def twoTokensMore : List Event :=
  fourTokens ++ [.tick (rotating 205 (vX 2 0 0) "e"), .tick (rotating 210 (vX 2 0 0) "f"),
    .tick (calmWorld 215), .tick (calmWorld 220)]

/-- A release change, tried again just before the next one may be made. -/
def triedAgain : List Event :=
  firstRound (vX 1 0 0) ++
    [.tick (naming 1000 (vX 2 0 0)), .tick { calmWorld 1005 with violations := fun _ => .ok [""] },
      .tick (naming 1599 (vX 2 0 0)), .tick (naming 1600 (vX 3 0 0))]

/-- The rounds started under the brake, each with its target and its time. -/
def brakedRounds (deeds : List Deed) : List (Release × Int) :=
  deeds.filterMap fun
    | .started state _ =>
        if state.rollout.braked then state.rollout.target.map fun target => (target, state.rollout.since)
        else none
    | _ => none

theorem brake_bounds_four_tokens :
    Reserved oneService Process.fresh fourTokens ∧
      (restartTimes (Process.fresh.run oneService fourTokens).deeds).countP
        (fun time => decide (100 ≤ time) && decide (time < 100 + hourS)) ≤ restartsPerHour := by
  have reserved : Reserved oneService Process.fresh fourTokens := by decide +kernel
  exact ⟨reserved, (brake_bounds_runs oneService 0 fourTokens (by decide)).1 reserved 100⟩

/-- Seven restarts in one hour, and two rounds toward different releases one second apart. -/
theorem brake_overrun :
    (Timed 0 twoTokensMore ∧
      (restartTimes (Process.fresh.run oneService twoTokensMore).deeds).countP
        (fun time => decide (100 ≤ time) && decide (time < 100 + hourS)) = restartsPerHour + 1) ∧
      Timed 0 triedAgain ∧
      brakedRounds (Process.fresh.run oneService triedAgain).deeds =
        [(vX 2 0 0, 1000), (vX 2 0 0, 1599), (vX 3 0 0, 1600)] := by
  refine ⟨⟨?_, ?_⟩, ?_, ?_⟩ <;> decide +kernel

end OmarchyPool.Agent
