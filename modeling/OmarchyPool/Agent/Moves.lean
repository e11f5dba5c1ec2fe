/-
# OmarchyPool.Agent.Moves -- what a tick can do to the state

Every theorem about runs asks the same first question: which parts of the state may a tick
change, and under what condition?  The answers are collected here once.  Taking the orders is
a chain (`OrderMoves`), following the target a chain of `FollowMove`s, and the round's own step
is one of the four cases of `Stepped`.  No later proof unfolds the loop.
-/
import Mathlib.Logic.Relation
import OmarchyPool.Agent.Loop

namespace OmarchyPool.Agent

open OmarchyPool.Lib
open Relation (ReflTransGen)

set_option autoImplicit false

/-! ## What stays as it was -/

structure SameTrust (s t : State) : Prop where
  floor : t.floor = s.floor
  minRelease : t.minRelease = s.minRelease
  revoked : t.revoked = s.revoked
  statementSeq : t.statementSeq = s.statementSeq
  vouched : t.vouched = s.vouched
  applied : t.applied = s.applied

/-- The counters of the restarts and of the release changes. -/
structure SameBrake (s t : State) : Prop where
  restarts : t.brake.restarts = s.brake.restarts
  releases : t.brake.releases = s.brake.releases
  lastRelease : t.brake.lastRelease = s.brake.lastRelease

/-- A round that goes on is the round that was started. -/
structure SameRound (r s : Rollout) : Prop where
  target : s.target = r.target
  fromRelease : s.fromRelease = r.fromRelease
  rollback : s.rollback = r.rollback
  why : s.why = r.why
  braked : s.braked = r.braked

/-- Nothing a theorem about trust, rounds or the brake asks about has changed. -/
structure Quiet (p q : Process) : Prop where
  trust : SameTrust p.state q.state
  brake : SameBrake p.state q.state
  rollout : q.state.rollout = p.state.rollout
  target : q.state.target = p.state.target
  disk : q.disk = p.disk
  saved : q.saved = p.saved
  deeds : ∃ more, q.deeds = p.deeds ++ more ∧ ∀ d ∈ more, ∃ o t, d = .carried o t

theorem SameTrust.refl (s : State) : SameTrust s s := ⟨rfl, rfl, rfl, rfl, rfl, rfl⟩

theorem SameTrust.trans {s t u : State} (one : SameTrust s t) (two : SameTrust t u) :
    SameTrust s u where
  floor := two.floor.trans one.floor
  minRelease := two.minRelease.trans one.minRelease
  revoked := two.revoked.trans one.revoked
  statementSeq := two.statementSeq.trans one.statementSeq
  vouched := two.vouched.trans one.vouched
  applied := two.applied.trans one.applied

theorem SameBrake.refl (s : State) : SameBrake s s := ⟨rfl, rfl, rfl⟩

theorem SameBrake.trans {s t u : State} (one : SameBrake s t) (two : SameBrake t u) :
    SameBrake s u where
  restarts := two.restarts.trans one.restarts
  releases := two.releases.trans one.releases
  lastRelease := two.lastRelease.trans one.lastRelease

theorem SameRound.refl (r : Rollout) : SameRound r r := ⟨rfl, rfl, rfl, rfl, rfl⟩

theorem SameRound.trans {r s t : Rollout} (one : SameRound r s) (two : SameRound s t) :
    SameRound r t where
  target := two.target.trans one.target
  fromRelease := two.fromRelease.trans one.fromRelease
  rollback := two.rollback.trans one.rollback
  why := two.why.trans one.why
  braked := two.braked.trans one.braked

theorem quiet_setState {p : Process} {s : State} (trust : SameTrust p.state s)
    (brake : SameBrake p.state s) (rollout : s.rollout = p.state.rollout)
    (target : s.target = p.state.target) : Quiet p (p.setState s) where
  trust := trust
  brake := brake
  rollout := rollout
  target := target
  disk := rfl
  saved := rfl
  deeds := ⟨[], by simp [Process.setState], by simp⟩

/-- What a process keeps beside its state, its disk and its deeds does not matter. -/
theorem quiet_of_same {p q : Process} (state : q.state = p.state) (disk : q.disk = p.disk)
    (saved : q.saved = p.saved) (deeds : q.deeds = p.deeds) : Quiet p q where
  trust := state ▸ SameTrust.refl _
  brake := state ▸ SameBrake.refl _
  rollout := by rw [state]
  target := by rw [state]
  disk := disk
  saved := saved
  deeds := ⟨[], by simp [deeds], by simp⟩

theorem Quiet.refl (p : Process) : Quiet p p := quiet_of_same rfl rfl rfl rfl

theorem Quiet.trans {p q r : Process} (one : Quiet p q) (two : Quiet q r) : Quiet p r where
  trust := one.trust.trans two.trust
  brake := one.brake.trans two.brake
  rollout := two.rollout.trans one.rollout
  target := two.target.trans one.target
  disk := two.disk.trans one.disk
  saved := two.saved.trans one.saved
  deeds := by
    obtain ⟨first, here, carried⟩ := one.deeds
    obtain ⟨second, there, also⟩ := two.deeds
    refine ⟨first ++ second, by rw [there, here, List.append_assoc], ?_⟩
    intro d mem
    exact (List.mem_append.mp mem).elim (carried d) (also d)

theorem quiet_remember (p : Process) (id : OrderId) : Quiet p (remember p id) :=
  quiet_setState ⟨rfl, rfl, rfl, rfl, rfl, rfl⟩ ⟨rfl, rfl, rfl⟩ rfl rfl

theorem quiet_answer (p : Process) (id : OrderId) : Quiet p (answer p id) := quiet_remember p id

theorem quiet_liftQuarantine (p : Process) : Quiet p (liftQuarantine p) :=
  quiet_setState ⟨rfl, rfl, rfl, rfl, rfl, rfl⟩ ⟨rfl, rfl, rfl⟩ rfl rfl

theorem quiet_say (p : Process) (now : Int) (outcome : Outcome) : Quiet p (say p now outcome) := by
  unfold say
  split
  · exact quiet_setState ⟨rfl, rfl, rfl, rfl, rfl, rfl⟩ ⟨rfl, rfl, rfl⟩ rfl rfl
  · exact Quiet.refl p

/-! ## Taking the orders -/

/-- The orders that make the agent recreate the dispatcher. -/
def recreates : OrderKind → Bool
  | .setUnits _ | .setEmulate _ | .rotateToken | .widenEnvelope _ => true
  | _ => false

/-- What the orders do: moves that do not matter, and restarts the brake has room for, `most` of them
at most. -/
inductive OrderMoves (now : Int) : (most : Nat) → Process → Process → Prop where
  | refl {most : Nat} {p : Process} : OrderMoves now most p p
  | quiet {most : Nat} {p q r : Process} (moves : OrderMoves now most p q) (quiet : Quiet q r) :
      OrderMoves now most p r
  | counted {most : Nat} {p q : Process} (moves : OrderMoves now most p q) (asks : List Ask)
      (once : asks.Nodup) (asked : Ask.restart ∈ asks) (noRelease : Ask.release ∉ asks)
      (room : q.state.brake.count .restart now < restartsPerHour) :
      OrderMoves now (most + 1) p (recordRestart q now asks)

section OrderMoves

variable {w : World}

theorem OrderMoves.trans {now : Int} {most more : Nat} {p q r : Process} (first : OrderMoves now most p q)
    (second : OrderMoves now more q r) : OrderMoves now (most + more) p r := by
  induction second with
  | @refl more q =>
      clear * - first
      induction first with
      | refl => exact .refl
      | quiet _ quiet ih => exact ih.quiet quiet
      | counted _ asks once asked noRelease room ih =>
          rw [Nat.add_right_comm]
          exact ih.counted asks once asked noRelease room
  | quiet _ quiet ih => exact (ih first).quiet quiet
  | counted _ asks once asked noRelease room ih => exact (ih first).counted asks once asked noRelease room

theorem OrderMoves.of_quiet {now : Int} {most : Nat} {p q : Process} (quiet : Quiet p q) :
    OrderMoves now most p q := OrderMoves.refl.quiet quiet

theorem OrderMoves.one {now : Int} {p : Process} (asks : List Ask) (once : asks.Nodup)
    (asked : Ask.restart ∈ asks) (noRelease : Ask.release ∉ asks)
    (room : p.state.brake.count .restart now < restartsPerHour) :
    OrderMoves now 1 p (recordRestart p now asks) := by
  have none_ : OrderMoves now 0 p p := .refl
  exact none_.counted asks once asked noRelease room

theorem narrowTo_moves (p : Process) (n : Narrow) (room : p.state.brake.count .restart w.now < restartsPerHour) :
    OrderMoves w.now 1 p (narrowTo w p n) := by
  unfold narrowTo
  split
  · exact .refl
  · split
    · exact .refl
    · exact .refl
    · rename_i new _ _ changed _
      have set : Quiet p (p.setState { p.state with settings := some new }) :=
        quiet_setState ⟨rfl, rfl, rfl, rfl, rfl, rfl⟩ ⟨rfl, rfl, rfl⟩ rfl rfl
      dsimp only
      split
      · have none_ : OrderMoves w.now 0 p (p.setState { p.state with settings := some new }) := .of_quiet set
        exact none_.counted [.narrowing, .restart] (by decide) (by decide) (by decide) room
      · exact .of_quiet set

theorem rotateToken_moves (p : Process) (room : p.state.brake.count .restart w.now < restartsPerHour) :
    OrderMoves w.now 1 p (rotateToken w p) := by
  unfold rotateToken
  split
  · exact .one _ (by decide) (by decide) (by decide) room
  · exact .refl

theorem widenEnvelope_moves (p : Process) (room : p.state.brake.count .restart w.now < restartsPerHour) :
    OrderMoves w.now 1 p (widenEnvelope w p) := by
  unfold widenEnvelope
  split
  · exact .one _ (by decide) (by decide) (by decide) room
  · exact .refl
  · exact .refl

theorem beginRetire_quiet {p q : Process} {order : OrderId}
    (begun : beginRetire w p order = some q) : Quiet p q := by
  unfold beginRetire at begun
  split at begun
  · cases begun
  · split at begun
    · cases begun
      exact quiet_setState ⟨rfl, rfl, rfl, rfl, rfl, rfl⟩ ⟨rfl, rfl, rfl⟩ rfl rfl
    · cases begun

/-- The restarts an order may make the agent count. -/
def Order.restarts (o : Order) : Nat := if recreates o.kind then 1 else 0

/-- An order carried out: the restart it counts is one the brake was asked for. -/
theorem take_moves (o : Order) (p : Process)
    (room : recreates o.kind = true → p.state.brake.count .restart w.now < restartsPerHour) :
    OrderMoves w.now o.restarts p (take w o p).1 := by
  have carried : Quiet p (p.did (.carried o w.now)) :=
    ⟨SameTrust.refl _, SameBrake.refl _, rfl, rfl, rfl, rfl, [.carried o w.now], rfl,
      fun d mem => ⟨o, w.now, List.mem_singleton.mp mem⟩⟩
  -- What follows `did` has the brake of `p`.
  have after : ∀ {most : Nat} {q : Process}, OrderMoves w.now most (p.did (.carried o w.now)) q →
      OrderMoves w.now most p q := by
    intro most q moves
    have first : OrderMoves w.now 0 p (p.did (.carried o w.now)) := .of_quiet carried
    rw [← Nat.zero_add most]
    exact first.trans moves
  have thenAnswer : ∀ {q : Process}, OrderMoves w.now o.restarts (p.did (.carried o w.now)) q →
      OrderMoves w.now o.restarts p (answer q o.id) :=
    fun moves => (after moves).quiet (quiet_answer _ _)
  have counts : ∀ {q : Process}, recreates o.kind = true → OrderMoves w.now 1 (p.did (.carried o w.now)) q →
      OrderMoves w.now o.restarts p (answer q o.id) := by
    intro q recreated moves
    refine thenAnswer ?_
    rwa [Order.restarts, if_pos recreated]
  unfold take
  dsimp only
  split
  · exact after (.of_quiet (quiet_remember _ _))
  · split
    · rename_i begun
      exact after ((OrderMoves.of_quiet (beginRetire_quiet begun)).quiet (quiet_remember _ _))
    · exact thenAnswer .refl
  · exact after ((OrderMoves.of_quiet (quiet_remember _ _)).quiet (quiet_liftQuarantine _))
  · rename_i kind
    exact counts (by rw [kind]; rfl) (narrowTo_moves _ _ (room (by rw [kind]; rfl)))
  · rename_i kind
    exact counts (by rw [kind]; rfl) (narrowTo_moves _ _ (room (by rw [kind]; rfl)))
  · rename_i kind
    exact counts (by rw [kind]; rfl) (narrowTo_moves _ _ (room (by rw [kind]; rfl)))
  · rename_i kind
    exact counts (by rw [kind]; rfl) (narrowTo_moves _ _ (room (by rw [kind]; rfl)))
  · rename_i kind
    exact counts (by rw [kind]; rfl) (rotateToken_moves _ (room (by rw [kind]; rfl)))
  · exact thenAnswer .refl
  · rename_i kind
    exact counts (by rw [kind]; rfl) (widenEnvelope_moves _ (room (by rw [kind]; rfl)))
  · exact thenAnswer .refl
  · exact after .refl
  · exact after .refl
  · exact after .refl

/-- An order that recreates the dispatcher asks the brake for a restart. -/
theorem asksOf_of_recreates {kind : OrderKind} (recreated : recreates kind = true) :
    Ask.restart ∈ asksOf kind := by
  cases kind <;> first | (cases recreated; done) | simp [asksOf]

theorem takeEach_moves (busy : Bool) (orders : List Order) (p : Process) :
    OrderMoves w.now (orders.map Order.restarts).sum p (takeEach w busy orders p).1 := by
  induction orders generalizing p with
  | nil => exact .of_quiet (quiet_of_same rfl rfl rfl rfl)
  | cons o rest ih =>
      rw [List.map_cons, List.sum_cons]
      have later : ∀ {q : Process}, OrderMoves w.now o.restarts p q →
          OrderMoves w.now (o.restarts + (rest.map Order.restarts).sum) p (takeEach w busy rest q).1 :=
        fun first => first.trans (ih _)
      unfold takeEach
      split
      · exact later .refl
      split
      · exact later .refl
      split
      · exact later (.of_quiet (quiet_answer p o.id))
      split
      · exact later .refl
      split
      · exact .of_quiet (quiet_of_same rfl rfl rfl rfl)
      dsimp only
      have considered : Quiet p (p.setState { p.state with
          brake := p.state.brake.considered w.now }) :=
        quiet_setState ⟨rfl, rfl, rfl, rfl, rfl, rfl⟩ ⟨rfl, rfl, rfl⟩ rfl rfl
      split
      · exact later ((OrderMoves.of_quiet considered).quiet (quiet_answer _ o.id))
      · rename_i room
        -- Counting the order itself leaves the restarts alone, so the check still stands.
        have ordered := @quiet_setState (p.setState { p.state with
            brake := p.state.brake.considered w.now }) { (p.setState { p.state with
              brake := p.state.brake.considered w.now }).state with
            brake := (p.state.brake.considered w.now).record w.now [.order] }
          ⟨rfl, rfl, rfl, rfl, rfl, rfl⟩ ⟨rfl, rfl, rfl⟩ rfl rfl
        have fits : recreates o.kind = true →
            (recordAsks (p.setState { p.state with brake := p.state.brake.considered w.now }) w.now
              [.order]).state.brake.count .restart w.now < restartsPerHour := by
          intro recreated
          have checked := Brake.checkRoom_ok room .restart
            (List.mem_cons_of_mem _ (asksOf_of_recreates recreated))
          have atLeastOne : 1 ≤ Brake.room (restartsOf (p.setState { p.state with
              brake := p.state.brake.considered w.now }) o.kind) .restart := le_max_right _ _
          exact Nat.lt_of_lt_of_le (Nat.lt_of_lt_of_le (Nat.lt_succ_self _)
            (Nat.add_le_add_left atLeastOne _)) checked
        have first : OrderMoves w.now 0 p _ := (OrderMoves.of_quiet considered).quiet ordered
        refine later ?_
        rw [← Nat.zero_add o.restarts]
        exact first.trans (take_moves o _ fits)

end OrderMoves

/-! ## Following the target -/

/-- A statement to `target` was accepted with `need` co-signatures over it. -/
def Vouched (deeds : List Deed) (need : Nat) (target : Release) : Prop :=
  ∃ before st found, .accepted before st found ∈ deeds ∧ st.toRelease = target ∧ need ≤ found

/-- On what grounds a round to `target` starts: the release runs already; or it is at or above the
floor and co-signed; or a statement that was just accepted brings it. -/
inductive Grounds (cfg : Config) (now : Int) (p : Process) (target : Release) :
    (rollback braked : Bool) → (found : Nat) → Prop where
  | runs (same : p.state.applied = some target) : Grounds cfg now p target false false 0
  | admitted {braked : Bool} {found : Nat} (clear : Clear p.state target)
      (above : AtLeast p.state.floor target)
      (signed : cfg.policy.threshold ≤ found ∨ p.state.vouched = some target)
      (room : braked = true →
        p.state.brake.count .restart now + roundRestarts ≤ restartsPerHour)
      (counted : braked = true → p.state.brake.lastRelease = some target) :
      Grounds cfg now p target false braked found
  | rolledBack {found : Nat} (clear : Clear p.state target) (floor : p.state.floor = some target)
      (signed : cfg.policy.threshold ≤ found ∨ Vouched p.deeds cfg.policy.threshold target) :
      Grounds cfg now p target true false found

/-- One move of following the release the pool named. -/
inductive FollowMove (cfg : Config) (now : Int) (named : Option Release) :
    Process → Process → Prop where
  | quiet {p q : Process} (quiet : Quiet p q) (orders : q.state.orders = p.state.orders)
      (deeds : q.deeds = p.deeds) : FollowMove cfg now named p q
  | noted {p : Process} (soak : Option Soak) :
      FollowMove cfg now named p (p.setState { p.state with target := named, soak := soak })
  | merged {p : Process} (m : Manifest) : FollowMove cfg now named p (p.setState (merge p.state m))
  | accepted {p : Process} (st : Statement) (found : Cosigned) (vouches : Bool)
      (preempts : p.state.rollout.step = .idle ∨ preemptible p.state.rollout.step = true)
      (names : named = some st.toRelease) (noted : p.state.target = named)
      (clear : Clear p.state st.toRelease)
      (next : ∀ last, p.state.statementSeq = some last → last < st.seq)
      (range : ∃ floor, p.state.floor = some floor ∧ st.toRelease < floor ∧
        floor ≤ st.retractsThrough)
      (signed : vouches = true → cfg.policy.threshold ≤ found.count) :
      FollowMove cfg now named p (accept p st found vouches)
  | changed {p : Process} (target : Release) (room : p.state.brake.count .release now < 1)
      (new : p.state.brake.lastRelease ≠ some target) :
      FollowMove cfg now named p (countChange p now target)
  | begun {p : Process} {target : Release} {rollback braked : Bool} {found : Nat} (why : String)
      (preempts : p.state.rollout.step = .idle ∨ preemptible p.state.rollout.step = true)
      (names : p.state.applied = some target ∨ named = some target)
      (grounds : Grounds cfg now p target rollback braked found) :
      FollowMove cfg now named p (beginRound p now target rollback braked found why)

section FollowMoves

variable {cfg : Config} {w : World} {named : Option Release}

theorem followMove_say (p : Process) (outcome : Outcome) :
    FollowMove cfg w.now named p (say p w.now outcome) := by
  refine .quiet (quiet_say p w.now outcome) ?_ ?_
  · unfold say; split <;> rfl
  · unfold say; split <;> rfl

/-- A process that leaves: the agent was swapped. -/
theorem followMove_exit (p : Process) : FollowMove cfg w.now named p { p with exit := true } :=
  .quiet (quiet_of_same rfl rfl rfl rfl) rfl rfl

theorem needsNewerAgent_moves (p : Process) (target : Release) (agent : Version) (urgent : Bool)
    (found : Cosignatures) :
    ReflTransGen (FollowMove cfg w.now named) p
      (needsNewerAgent cfg w p target agent urgent found) := by
  unfold needsNewerAgent
  split
  · exact .single (followMove_say p _)
  · split
    · exact .single (followMove_say p _)
    · split
      · exact .single (followMove_say p _)
      · split
        · exact .single (followMove_say p _)
        · split
          · exact .single (followMove_exit p)
          · exact .single (followMove_say p _)

theorem learn_moves (p : Process) (b : Bundle) (found : Cosignatures) :
    ReflTransGen (FollowMove cfg w.now named) p (learn cfg p b found) := by
  unfold learn
  split
  · exact .single (.merged b.manifest)
  · exact .refl

/-- A statement that is admitted, with what was found over it. -/
theorem statement_spec {state : State} {target : Release} {b : Bundle} {st : Statement}
    {found : Cosigned} (read : statement cfg w state target b = some (st, found)) :
    Clear state target ∧ (∀ last, state.statementSeq = some last → last < st.seq) ∧
      st.toRelease = target ∧
      ∃ floor, state.floor = some floor ∧ st.toRelease < floor ∧ floor ≤ st.retractsThrough := by
  unfold statement at read
  split at read
  · split at read
    · split at read
      · rename_i admitted
        cases read
        exact admitRollback_ok admitted
      · cases read
    · cases read
    · cases read
  · cases read
  · cases read
  · cases read

/-- A rollback that is accepted leaves the floor at its target. -/
theorem rollBack_spec {p q : Process} {target : Release} {b : Bundle} {found : Cosignatures}
    (preempts : p.state.rollout.step = .idle ∨ preemptible p.state.rollout.step = true)
    (isNamed : named = some target) (noted : p.state.target = named)
    (accepted : rollBack cfg w p target b found = some q) :
    ReflTransGen (FollowMove cfg w.now named) p q ∧ q.state.rollout = p.state.rollout ∧
      Clear q.state target ∧ q.state.floor = some target ∧
      (cfg.policy.threshold ≤ found.cosigned.count ∨
        Vouched q.deeds cfg.policy.threshold target) := by
  unfold rollBack at accepted
  split at accepted
  · cases accepted
  · rename_i st stFound read
    obtain ⟨clear, next, names, range⟩ := statement_spec read
    dsimp only at accepted
    split at accepted
    · cases accepted
    split at accepted
    · cases accepted
    rename_i signed
    split at accepted
    · cases accepted
    injection accepted with accepted
    subst accepted
    -- Leaving or not, the process that accepts has the state and the deeds of `p`.
    have leaves : ∀ before : Process, before.state = p.state → before.deeds = p.deeds →
        before.disk = p.disk → before.saved = p.saved →
        let q := accept before st stFound (decide (found.cosigned.count < cfg.policy.threshold))
        ReflTransGen (FollowMove cfg w.now named) p q ∧ q.state.rollout = p.state.rollout ∧
          Clear q.state target ∧ q.state.floor = some target ∧
          (cfg.policy.threshold ≤ found.cosigned.count ∨
            Vouched q.deeds cfg.policy.threshold target) := by
      intro before state deeds disk saved
      have enough := cosigned_ok signed
      refine ⟨?_, ?_, ?_, ?_, ?_⟩
      · refine (ReflTransGen.single (.quiet (quiet_of_same state disk saved deeds)
          (by rw [state]) deeds)).tail (.accepted st stFound _ ?_ ?_ ?_ ?_ ?_ ?_ ?_)
        · rw [state]; exact preempts
        · rw [isNamed, names]
        · rw [state]; exact noted
        · rw [state, names]; exact clear
        · rw [state]; exact next
        · rw [state]; exact range
        · intro short
          rcases enough with bundle | ⟨found', known, statement⟩
          · have := of_decide_eq_true short
            omega
          · cases known
            exact statement
      · have same : before.state.rollout = p.state.rollout := by rw [state]
        exact same
      · refine ⟨?_, ?_⟩
        · rw [show (accept before st stFound _).state.revoked = before.state.revoked from rfl,
            state]
          exact clear.notRevoked
        · rw [show (accept before st stFound _).state.minRelease = before.state.minRelease from rfl,
            state]
          exact clear.notBelow
      · rw [← names]; rfl
      · rcases enough with bundle | ⟨found', known, statement⟩
        · exact Or.inl bundle
        · cases known
          refine Or.inr ⟨before.state, st, stFound.count, ?_, names, statement⟩
          exact List.mem_append_right _ (List.mem_singleton.mpr rfl)
    split
    · exact leaves { p with exit := true } rfl rfl rfl rfl
    · exact leaves p rfl rfl rfl rfl

/-- Once its target is admitted, a round starts on the grounds it was admitted on. -/
theorem goOn_moves {p : Process} {target : Release} {b : Bundle} {found : Cosignatures}
    {rollback : Bool} (why : String)
    (preempts : p.state.rollout.step = .idle ∨ preemptible p.state.rollout.step = true)
    (isNamed : named = some target) (clear : Clear p.state target)
    (up : rollback = false → AtLeast p.state.floor target ∧
      (cfg.policy.threshold ≤ found.cosigned.count ∨ p.state.vouched = some target))
    (down : rollback = true → p.state.floor = some target ∧
      (cfg.policy.threshold ≤ found.cosigned.count ∨
        Vouched p.deeds cfg.policy.threshold target)) :
    ReflTransGen (FollowMove cfg w.now named) p (goOn cfg w p target b found rollback why) := by
  have withPending : ∀ {q r : Process} (pending : Target), ReflTransGen (FollowMove cfg w.now named) q r →
      ReflTransGen (FollowMove cfg w.now named) q { r with pending := some pending } :=
    fun pending moves => moves.tail (.quiet (quiet_of_same rfl rfl rfl rfl) rfl rfl)
  unfold goOn
  dsimp only
  split
  · exact .single (followMove_exit p)
  split
  · exact .single (followMove_say p _)
  split
  · exact .single (followMove_say p _)
  split
  · exact .single (followMove_say p _)
  rename_i files _
  split
  · rename_i braked
    have notRollback : rollback = false := by
      cases rollback with
      | false => rfl
      | true => simp at braked
    subst notRollback
    obtain ⟨above, signed⟩ := up rfl
    have brakedIs : (!false && p.state.applied.any fun applied => decide (applied ≠ target)) = true :=
      braked
    rw [brakedIs]
    split
    · exact .single (followMove_say p _)
    · rename_i checked
      have rooms := Brake.checkRoom_ok checked
      split
      · -- The release the last change went to: only the restarts were asked for.
        rename_i again
        have restarts := rooms .restart (by rw [if_pos again]; exact List.mem_singleton.mpr rfl)
        have grounds : Grounds cfg w.now p target false true found.cosigned.count :=
          .admitted clear above signed (fun _ => restarts) (fun _ => of_decide_eq_true again)
        exact withPending _ (.single (.begun why preempts (Or.inr isNamed) grounds))
      · rename_i fresh
        have release := rooms .release (by rw [if_neg fresh]; exact List.mem_cons_self)
        have restarts := rooms .restart
          (by rw [if_neg fresh]; exact List.mem_cons_of_mem _ (List.mem_singleton.mpr rfl))
        have change : FollowMove cfg w.now named p (countChange p w.now target) :=
          .changed target release (fun same => fresh (decide_eq_true same))
        have grounds : Grounds cfg w.now (countChange p w.now target) target false true
            found.cosigned.count :=
          .admitted ⟨clear.notRevoked, clear.notBelow⟩ above signed (fun _ => restarts)
            (fun _ => rfl)
        exact withPending _ ((ReflTransGen.single change).tail (.begun why preempts (Or.inr isNamed) grounds))
  · rename_i unbraked
    have brakedIs : (!rollback && p.state.applied.any fun applied => decide (applied ≠ target)) =
        false := by simpa using unbraked
    rw [brakedIs]
    refine withPending _ (.single (.begun why preempts (Or.inr isNamed) ?_))
    cases rollback with
    | false =>
        obtain ⟨above, signed⟩ := up rfl
        exact .admitted clear above signed (fun braked => by cases braked)
          (fun braked => by cases braked)
    | true =>
        obtain ⟨floor, signed⟩ := down rfl
        exact .rolledBack clear floor signed

theorem goTo_moves (p : Process) (target : Release) (why : String)
    (preempts : p.state.rollout.step = .idle ∨ preemptible p.state.rollout.step = true)
    (isNamed : named = some target) (noted : p.state.target = named) :
    ReflTransGen (FollowMove cfg w.now named) p (goTo cfg w p target why) := by
  unfold goTo
  split
  · exact .single (followMove_say p _)
  · exact needsNewerAgent_moves p target _ _ _
  · rename_i b found _
    dsimp only
    have learnt := @learn_moves cfg w named p b found
    have still : (learn cfg p b found).state.rollout = p.state.rollout ∧
        (learn cfg p b found).state.target = p.state.target := by
      unfold learn
      split
      · exact ⟨rfl, rfl⟩
      · exact ⟨rfl, rfl⟩
    rw [← still.1] at preempts
    rw [← still.2] at noted
    generalize learn cfg p b found = q at learnt preempts noted
    refine learnt.trans ?_
    split
    · exact .single (followMove_say q _)
    split
    · rename_i admitted
      obtain ⟨clear, above⟩ := admits_ok admitted
      split
      · rename_i vouched
        refine goOn_moves why preempts isNamed clear (fun _ => ⟨above, Or.inr ?_⟩) (fun down => by cases down)
        exact (vouched_iff.mp vouched).1
      split
      · exact .single (followMove_say q _)
      split
      · exact .single (followMove_say q _)
      · rename_i signed
        refine goOn_moves why preempts isNamed clear (fun _ => ⟨above, Or.inl ?_⟩) (fun down => by cases down)
        rcases cosigned_ok signed with enough | ⟨_, none, _⟩
        · exact enough
        · cases none
    · split
      · exact .single (followMove_say q _)
      · rename_i rolled accepted
        obtain ⟨moves, same, clear, floor, signed⟩ := rollBack_spec preempts isNamed noted accepted
        refine moves.trans ?_
        split
        · exact .refl
        · refine goOn_moves why (by rw [same]; exact preempts) isNamed clear (fun up => by cases up) ?_
          intro _
          exact ⟨floor, signed⟩
    · exact .single (followMove_say q _)

/-- A round in flight has a target. -/
def Targeted (s : State) : Prop := s.rollout.step ≠ .idle → s.rollout.target.isSome

/-- Naming the target and its soak touches nothing else. -/
theorem noteSoak_shape (s : State) (target : Release) (now : Int) :
    ∃ soak, noteSoak cfg { s with target := some target } target now =
      { s with target := some target, soak := soak } := by
  unfold noteSoak
  split
  · exact ⟨none, rfl⟩
  · exact ⟨_, rfl⟩

theorem followTarget_moves (p : Process) (target : Option Release) (force : Option String)
    (targeted : Targeted p.state) :
    ReflTransGen (FollowMove cfg w.now target) p (followTarget cfg w p target force) := by
  unfold followTarget
  split
  · exact .refl
  rename_i target
  dsimp only
  obtain ⟨soak, noted⟩ := @noteSoak_shape cfg p.state target w.now
  rw [noted]
  refine ReflTransGen.head (.noted soak) ?_
  have targetedNow : Targeted
      (p.setState { p.state with target := some target, soak := soak }).state := targeted
  have notedNow : (p.setState { p.state with target := some target, soak := soak }).state.target =
      some target := rfl
  generalize p.setState { p.state with target := some target, soak := soak } = q
    at targetedNow notedNow
  split
  · exact .refl
  rename_i goes
  have preempts : q.state.rollout.step = .idle ∨ preemptible q.state.rollout.step = true := by
    by_cases idle : q.state.rollout.step = .idle
    · exact Or.inl idle
    · right
      have some := targetedNow idle
      simp only [inFlight, if_neg idle, some, Bool.true_and, Bool.or_eq_true, not_or,
        Bool.not_eq_true', Bool.not_eq_false] at goes
      exact goes.2
  split
  · exact .refl
  split
  · exact .single (followMove_exit q)
  split
  · exact .refl
  split
  · rename_i runs
    split
    · exact .single (.begun _ preempts (Or.inl runs.1) (.runs runs.1))
    · exact .single (followMove_say q _)
  split
  · exact .single (followMove_say q _)
  · exact goTo_moves q target _ preempts rfl notedNow

end FollowMoves

end OmarchyPool.Agent
