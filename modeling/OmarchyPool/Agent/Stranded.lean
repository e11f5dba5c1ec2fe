/-
# OmarchyPool.Agent.Stranded -- a rollback that was accepted, and what may take it back

An accepted statement is spent: its number is not accepted again.  What it leaves is the floor
at its target, so that the rollback can be tried again for as long as the floor stays there.
While the pool names that release alone, no retry, revert, forced round or restart raises it.
One thing does.  A repair of the release that still runs, above the target, goes through the
same commit as any round, and a commit raises the floor to what it commits (`Repairs`).
-/
import OmarchyPool.Agent.Floor

namespace OmarchyPool.Agent

open OmarchyPool.Lib
open Relation (ReflTransGen)

set_option autoImplicit false

variable {cfg : Config} {goal : Release}

/-- No release but `goal` is named. -/
def NamesOnly (goal : Release) : Event → Prop
  | .tick w | .unsaved w _ | .dies w _ _ =>
      ∀ s, w.answer = .ok s → ∀ release, s.target = some release → release = goal
  | .restart _ => True

/-- The round in flight is at its commit, and commits again a release above `goal` that runs. -/
def Repairs (goal : Release) (s : State) : Prop :=
  s.rollout.step = .commit ∧
    ∃ release ∈ s.rollout.target, goal < release ∧ s.applied = some release

instance (goal : Release) (s : State) : Decidable (Repairs goal s) := by
  unfold Repairs
  infer_instance

/-- The event takes such a step, with all its operations. -/
def Strands (cfg : Config) (goal : Release) (p : Process) : Event → Prop
  | .tick _ => Repairs goal p.state
  | .unsaved w done => reaches cfg w done p = true ∧ Repairs goal p.state
  | .dies _ _ _ | .restart _ => False

instance (cfg : Config) (goal : Release) (p : Process) (e : Event) :
    Decidable (Strands cfg goal p e) :=
  match e with
  | .tick _ => inferInstanceAs (Decidable (Repairs goal p.state))
  | .unsaved w done =>
      inferInstanceAs (Decidable (reaches cfg w done p = true ∧ Repairs goal p.state))
  | .dies _ _ _ | .restart _ => inferInstanceAs (Decidable False)

/-- The floor is not above `goal`, and a round in flight goes to nothing above it but to the
release that runs. -/
structure Stays (goal : Release) (s : State) : Prop where
  floor : ∃ floor, s.floor = some floor ∧ floor ≤ goal
  target : ∀ release, s.target = some release → release = goal
  round : s.rollout.step ≠ .idle → ∀ release, s.rollout.target = some release →
    release ≤ goal ∨ s.applied = some release

theorem Stays.admitted {s : State} (stays : Stays goal s) : belowFloor s goal = false := by
  unfold belowFloor
  split
  · rename_i refused
    obtain ⟨-, -, known, under⟩ := admits_belowFloor refused
    obtain ⟨floor, stands, low⟩ := stays.floor
    rw [known] at stands
    cases stands
    exact absurd under (not_lt.mpr low)
  · rfl

theorem Stays.of_same {s t : State} (stays : Stays goal s) (trust : SameTrust s t)
    (target : t.target = s.target) (round : SameRound s.rollout t.rollout)
    (active : t.rollout.step ≠ .idle → s.rollout.step ≠ .idle) : Stays goal t where
  floor := by rw [trust.floor]; exact stays.floor
  target := by rw [target]; exact stays.target
  round := by
    intro moving
    rw [round.target, trust.applied]
    exact stays.round (active moving)

theorem Stays.quiet {p q : Process} (stays : Stays goal p.state) (quiet : Quiet p q) :
    Stays goal q.state := by
  refine stays.of_same quiet.trust quiet.target ?_ ?_
  · rw [quiet.rollout]
    exact SameRound.refl _
  · rw [quiet.rollout]
    exact id

theorem stays_orderMoves {now : Int} {most : Nat} {p q : Process} (stays : Stays goal p.state)
    (moves : OrderMoves now most p q) : Stays goal q.state := by
  induction moves with
  | refl => exact stays
  | quiet _ quiet ih => exact (ih stays).quiet quiet
  | counted _ _ _ _ _ _ ih => exact (ih stays).of_same ⟨rfl, rfl, rfl, rfl, rfl, rfl⟩ rfl (SameRound.refl _) id

/-- Following the one release that is named starts no round above it but of what runs. -/
theorem stays_follow {now : Int} {named : Option Release} {p q : Process}
    (names : ∀ release, named = some release → release = goal) (stays : Stays goal p.state)
    (move : FollowMove cfg now named p q) : Stays goal q.state := by
  cases move with
  | quiet quiet _ _ => exact stays.quiet quiet
  | noted _ => exact ⟨stays.floor, names, stays.round⟩
  | merged _ => exact ⟨stays.floor, stays.target, stays.round⟩
  | accepted st _ _ _ _ _ _ _ range _ =>
      refine ⟨⟨st.toRelease, rfl, ?_⟩, stays.target, stays.round⟩
      obtain ⟨floor, known, below, -⟩ := range
      obtain ⟨stands, same, low⟩ := stays.floor
      rw [known] at same
      cases same
      exact le_of_lt (lt_of_lt_of_le below low)
  | changed _ _ _ => exact ⟨stays.floor, stays.target, stays.round⟩
  | begun _ _ toward _ =>
      refine ⟨stays.floor, stays.target, ?_⟩
      intro _ release goes
      cases goes
      rcases toward with runs | follows
      · exact Or.inr runs
      · exact Or.inl (le_of_eq (names _ follows))

theorem stays_moves {now : Int} {named : Option Release} {p q : Process}
    (names : ∀ release, named = some release → release = goal) (stays : Stays goal p.state)
    (moves : ReflTransGen (Move cfg now named) p q) : Stays goal q.state := by
  induction moves with
  | refl => exact stays
  | tail _ move ih =>
      cases move with
      | quiet quiet => exact ih.quiet quiet
      | follow move => exact stays_follow names ih move

theorem stays_acting {w : World} {p : Process} (targeted : Targeted p.state)
    (names : ∀ s, w.answer = .ok s → ∀ release, s.target = some release → release = goal)
    (stays : Stays goal p.state) : Stays goal (acting cfg w p).state := by
  obtain ⟨mid, orders, moves⟩ := @acting_moves cfg w p targeted
  refine stays_moves ?_ (stays_orderMoves stays orders) moves
  intro release follows
  unfold named at follows
  split at follows
  · split at follows
    · rename_i s answered
      exact names s answered release follows
    · cases follows
    · cases follows
  · exact stays.target release follows

/-- A step raises the floor above `goal` only by a repair. -/
theorem stays_stepped {now : Int} {s t : State} {deeds : List Deed} (stays : Stays goal s)
    (spared : ¬ Repairs goal s) (stepped : Stepped now s t deeds) : Stays goal t := by
  cases stepped with
  | kept trust _ rest round _ idle _ =>
      refine stays.of_same trust rest.target round ?_
      intro moving still
      exact moving (by rw [idle still]; exact still)
  | counted trust _ rest round _ active _ =>
      exact stays.of_same trust rest.target round fun _ => active
  | ended trust _ rest isOver =>
      refine ⟨by rw [trust.floor]; exact stays.floor, by rw [rest.target]; exact stays.target, ?_⟩
      intro moving
      rw [isOver] at moving
      exact absurd rfl moving
  | @committed release step names floor _ _ _ _ _ _ rest isOver =>
      refine ⟨⟨_, floor, ?_⟩, by rw [rest.target]; exact stays.target, ?_⟩
      · have active : s.rollout.step ≠ .idle := by rw [step]; exact fun same => nomatch same
        have low : release ≤ goal := by
          rcases stays.round active release names with low | runs
          · exact low
          · by_contra above
            exact spared ⟨step, release, names, not_le.mp above, runs⟩
        obtain ⟨stands, known, below⟩ := stays.floor
        unfold committedFloor
        split
        · exact low
        · rw [known]
          exact max_le below low
      · intro moving
        rw [isOver] at moving
        exact absurd rfl moving

theorem repairs_acting {w : World} {p : Process} (targeted : Targeted p.state)
    (repairs : Repairs goal (acting cfg w p).state) : Repairs goal p.state := by
  obtain ⟨step, release, names, above, runs⟩ := repairs
  rcases @acting_rollout cfg w p targeted with same | ⟨render, -⟩
  · rw [same] at step names
    rw [acting_applied p targeted] at runs
    exact ⟨step, release, names, above, runs⟩
  · rw [step] at render
    cases render

theorem stays_ticked {w : World} {p : Process} (targeted : Targeted p.state)
    (names : ∀ s, w.answer = .ok s → ∀ release, s.target = some release → release = goal)
    (spared : ¬ Repairs goal p.state) (stays : Stays goal p.state) :
    Stays goal (ticked cfg w p).state := by
  have acted : Stays goal (acting cfg w p).state := stays_acting targeted names stays
  have stepped := stays_stepped acted (fun repairs => spared (repairs_acting targeted repairs))
    (@workOf_stepped cfg w (acting cfg w p))
  have done : Stays goal (performed (acting cfg w p) (workOf cfg w (acting cfg w p))).state := stepped
  exact done.quiet (closing_quiet _)

theorem stays_failedAfter {w : World} {done : Nat} {p : Process} (targeted : Targeted p.state)
    (names : ∀ s, w.answer = .ok s → ∀ release, s.target = some release → release = goal)
    (stays : Stays goal p.state) : Stays goal (failedAfter cfg w done p).state := by
  have acted : Stays goal (acting cfg w p).state := stays_acting targeted names stays
  have broken : Stays goal ({ acting cfg w p with
      disk := (acting cfg w p).disk.after ((workOf cfg w (acting cfg w p)).ops.take done) } :
        Process).state := acted
  exact broken.quiet (closing_quiet _)

theorem stays_resume {s : State} (stays : Stays goal s) (now : Int) : Stays goal (resume s now) := by
  obtain ⟨trust, round, active⟩ := resume_spec s now
  refine stays.of_same trust ?_ round active
  unfold resume
  split <;> rfl

/-! ## The statement is accepted -/

/-- What is known of every statement accepted `since`: the pool named its target, the floor is not
above it now, and no commit was under way. -/
def Accepts (named : Option Release) (p q : Process) (since : List Deed) : Prop :=
  ∀ before st found, .accepted before st found ∈ since →
    named = some st.toRelease ∧ q.state.target = named ∧
      (∃ floor, q.state.floor = some floor ∧ floor ≤ st.toRelease) ∧
      (p.state.rollout.step = .idle ∨ preemptible p.state.rollout.step = true)

/-- A move that accepts nothing and leaves the floor and the target named. -/
theorem Accepts.later {named : Option Release} {p q r : Process} {since more : List Deed}
    (accepts : Accepts named p q since) (floor : r.state.floor = q.state.floor)
    (target : r.state.target = q.state.target ∨ r.state.target = named)
    (others : ∀ before st found, .accepted before st found ∉ more) :
    Accepts named p r (since ++ more) := by
  intro before st found mem
  rcases List.mem_append.mp mem with old | new
  · obtain ⟨names, noted, low, preempts⟩ := accepts before st found old
    refine ⟨names, ?_, by rw [floor]; exact low, preempts⟩
    rcases target with same | now
    · exact same.trans noted
    · exact now
  · exact absurd new (others before st found)

theorem accepts_moves {now : Int} {named : Option Release} {p q : Process}
    (moves : ReflTransGen (Move cfg now named) p q) :
    ∃ since, q.deeds = p.deeds ++ since ∧ Accepts named p q since := by
  induction moves with
  | refl => exact ⟨[], (List.append_nil _).symm, fun _ _ _ mem => by cases mem⟩
  | @tail b c chain move ih =>
      obtain ⟨since, deeds, accepts⟩ := ih
      have quietly : ∀ {q : Process}, Quiet b q →
          ∃ since, q.deeds = p.deeds ++ since ∧ Accepts named p q since := by
        intro q quiet
        obtain ⟨more, grows, carried⟩ := quiet.deeds
        refine ⟨since ++ more, by rw [grows, deeds, List.append_assoc], ?_⟩
        refine accepts.later quiet.trust.floor (Or.inl quiet.target) ?_
        intro before st found mem
        obtain ⟨o, t, shape⟩ := carried _ mem
        cases shape
      have plainly : ∀ {q : Process} (more : List Deed), q.deeds = b.deeds ++ more →
          q.state.floor = b.state.floor →
          (q.state.target = b.state.target ∨ q.state.target = named) →
          (∀ before st found, .accepted before st found ∉ more) →
          ∃ since, q.deeds = p.deeds ++ since ∧ Accepts named p q since := by
        intro q more grows floor target others
        exact ⟨since ++ more, by rw [grows, deeds, List.append_assoc],
          accepts.later floor target others⟩
      cases move with
      | quiet quiet => exact quietly quiet
      | follow move =>
          cases move with
          | quiet quiet _ _ => exact quietly quiet
          | noted _ => exact plainly [] (List.append_nil _).symm rfl (Or.inr rfl) (by simp)
          | merged _ => exact plainly [] (List.append_nil _).symm rfl (Or.inl rfl) (by simp)
          | changed _ _ _ => exact plainly _ rfl rfl (Or.inl rfl) (by simp)
          | begun _ _ _ _ => exact plainly _ rfl rfl (Or.inl rfl) (by simp)
          | accepted st found vouches preempts names noted _ _ range _ =>
              refine ⟨since ++ [.accepted b.state st found.count], ?_, ?_⟩
              · rw [← List.append_assoc, ← deeds]
                rfl
              · intro before st' found' mem
                have calm : p.state.rollout.step = .idle ∨
                    preemptible p.state.rollout.step = true := by
                  rcases moves_rollout chain with same | ⟨-, before⟩
                  · rw [← same]
                    exact preempts
                  · exact before
                rcases List.mem_append.mp mem with old | new
                · obtain ⟨names', -, ⟨floor, known, low⟩, -⟩ := accepts before st' found' old
                  refine ⟨names', noted, ⟨st.toRelease, rfl, ?_⟩, calm⟩
                  obtain ⟨floor', known', below, -⟩ := range
                  rw [known] at known'
                  cases known'
                  exact le_of_lt (lt_of_lt_of_le below low)
                · cases List.mem_singleton.mp new
                  exact ⟨names, noted, ⟨st.toRelease, rfl, le_refl _⟩, calm⟩

/-- A step accepts no statement. -/
theorem stepped_accepts_nothing {now : Int} {s t : State} {deeds : List Deed}
    (stepped : Stepped now s t deeds) : ∀ before st found, .accepted before st found ∉ deeds := by
  intro before st found mem
  cases stepped with
  | kept _ _ _ _ _ _ guarding => exact guarding _ mem
  | counted _ _ _ _ _ _ guarding =>
      rcases List.mem_cons.mp mem with same | later
      · cases same
      · exact guarding _ later
  | ended _ _ _ _ => cases mem
  | committed _ _ _ _ _ _ _ _ _ _ _ => cases List.mem_singleton.mp mem

/-- The tick that accepts a statement leaves the floor at its target, and the target noted. -/
theorem accepted_ticked {w : World} {p : Process} (targeted : Targeted p.state) {since : List Deed}
    (grown : (ticked cfg w p).deeds = p.deeds ++ since) {before : State} {st : Statement}
    {found : Nat} (accepted : .accepted before st found ∈ since) :
    (∃ floor, (ticked cfg w p).state.floor = some floor ∧ floor ≤ st.toRelease) ∧
      (ticked cfg w p).state.target = some st.toRelease := by
  obtain ⟨mid, orders, moves⟩ := @acting_moves cfg w p targeted
  obtain ⟨first, taken, known⟩ := orderMoves_deeds orders
  obtain ⟨second, followed, accepts⟩ := accepts_moves moves
  have stepped := @workOf_stepped cfg w (acting cfg w p)
  have closed := closing_quiet (w := w) (performed (acting cfg w p) (workOf cfg w (acting cfg w p)))
  obtain ⟨last, closes, carried⟩ := closed.deeds
  have all : since = first ++ (second ++ ((workOf cfg w (acting cfg w p)).deeds ++ last)) := by
    have whole : (ticked cfg w p).deeds =
        p.deeds ++ (first ++ (second ++ ((workOf cfg w (acting cfg w p)).deeds ++ last))) := by
      rw [ticked, closes, performed, followed, taken]
      simp only [List.append_assoc]
    exact List.append_cancel_left (grown.symm.trans whole)
  rw [all] at accepted
  have inMoves : .accepted before st found ∈ second := by
    rcases List.mem_append.mp accepted with early | accepted
    · rcases known _ early with ⟨o, t, same⟩ | same
      · cases same
      · cases same
    rcases List.mem_append.mp accepted with here | accepted
    · exact here
    rcases List.mem_append.mp accepted with late | late
    · exact absurd late (stepped_accepts_nothing stepped before st found)
    · obtain ⟨o, t, same⟩ := carried _ late
      cases same
  obtain ⟨names, noted, low, preempts⟩ := accepts before st found inMoves
  -- What accepted the statement is not at its commit, so the step leaves the floor alone.
  have notCommit : (acting cfg w p).state.rollout.step ≠ .commit := by
    rw [orderMoves_rollout orders] at preempts
    rcases @acting_rollout cfg w p targeted with same | ⟨render, -⟩
    · rw [same]
      intro commit
      rw [commit] at preempts
      rcases preempts with idle | early
      · cases idle
      · cases early
    · rw [render]
      exact fun same => nomatch same
  have same : (workOf cfg w (acting cfg w p)).state.floor = (acting cfg w p).state.floor ∧
      (workOf cfg w (acting cfg w p)).state.target = (acting cfg w p).state.target := by
    generalize (workOf cfg w (acting cfg w p)).deeds = deeds at stepped
    cases stepped with
    | kept trust _ rest _ _ _ _ => exact ⟨trust.floor, rest.target⟩
    | counted trust _ rest _ _ _ _ => exact ⟨trust.floor, rest.target⟩
    | ended trust _ rest _ => exact ⟨trust.floor, rest.target⟩
    | committed step _ _ _ _ _ _ _ _ _ _ => exact absurd step notCommit
  have floorIs : (ticked cfg w p).state.floor = (acting cfg w p).state.floor :=
    closed.trust.floor.trans same.1
  have targetIs : (ticked cfg w p).state.target = (acting cfg w p).state.target :=
    closed.target.trans same.2
  rw [floorIs, targetIs, noted, names]
  exact ⟨low, rfl⟩

/-! ## Over a run -/

/-- What holds between two events once the statement was accepted and saved. -/
structure Standing (cfg : Config) (goal : Release) (p : Process) : Prop where
  trusted : Trusted cfg p
  state : Stays goal p.state
  saved : Stays goal p.saved

theorem standing_next {p : Process} (standing : Standing cfg goal p) {e : Event}
    (names : NamesOnly goal e) (spared : ¬ Strands cfg goal p e) :
    Standing cfg goal (p.next cfg e) := by
  have targeted := standing.trusted.state.targeted
  refine ⟨trusted_next standing.trusted e, ?_, ?_⟩
  · cases e with
    | tick w => exact stays_ticked targeted names spared standing.state
    | unsaved w done =>
        show Stays goal (brokenOff cfg w done p).state
        unfold brokenOff
        split
        · rename_i through
          exact stays_ticked targeted names (fun repairs => spared ⟨through, repairs⟩)
            standing.state
        · exact stays_failedAfter targeted names standing.state
    | dies w done time =>
        have kept : (brokenOff cfg w done p).saved = p.saved :=
          (advances_brokenOff w done standing.trusted.state).saved
        refine stays_resume ?_ time
        rw [kept]
        exact standing.saved
    | restart time => exact stays_resume standing.saved time
  · cases e with
    | tick w => exact stays_ticked targeted names spared standing.state
    | unsaved w done =>
        have kept : (brokenOff cfg w done p).saved = p.saved :=
          (advances_brokenOff w done standing.trusted.state).saved
        show Stays goal (brokenOff cfg w done p).saved
        rw [kept]
        exact standing.saved
    | dies w done time =>
        have kept : (brokenOff cfg w done p).saved = p.saved :=
          (advances_brokenOff w done standing.trusted.state).saved
        show Stays goal (brokenOff cfg w done p).saved
        rw [kept]
        exact standing.saved
    | restart _ => exact standing.saved

/-- No event of the run strands the host above `goal`. -/
def Spared (cfg : Config) (goal : Release) : Process → List Event → Prop
  | _, [] => True
  | p, e :: rest => ¬ Strands cfg goal p e ∧ Spared cfg goal (p.next cfg e) rest

instance decidableSpared (cfg : Config) (goal : Release) :
    (p : Process) → (events : List Event) → Decidable (Spared cfg goal p events)
  | _, [] => inferInstanceAs (Decidable True)
  | p, e :: rest =>
      have := decidableSpared cfg goal (p.next cfg e) rest
      inferInstanceAs (Decidable (¬ Strands cfg goal p e ∧ Spared cfg goal (p.next cfg e) rest))

theorem standing_run {p : Process} (standing : Standing cfg goal p) {events : List Event}
    (names : ∀ e ∈ events, NamesOnly goal e) (spared : Spared cfg goal p events) :
    Standing cfg goal (p.run cfg events) := by
  induction events generalizing p with
  | nil => exact standing
  | cons e rest ih =>
      have here := standing_next standing (names e List.mem_cons_self) spared.1
      exact ih here (fun other mem => names other (List.mem_cons_of_mem _ mem)) spared.2

def Deed.accepts (goal : Release) : Deed → Bool
  | .accepted _ st _ => st.toRelease = goal
  | _ => false

/-- The tick accepts a statement to `goal`, and the round in flight after it, if any, goes to
nothing above `goal` but to the release that runs. -/
structure TakesBack (cfg : Config) (w : World) (p : Process) (goal : Release) : Prop where
  accepted : ∃ deed ∈ (ticked cfg w p).deeds.drop p.deeds.length, deed.accepts goal = true
  alone : ∀ release ∈ inFlight (ticked cfg w p).state,
    release ≤ goal ∨ (ticked cfg w p).state.applied = some release

instance (cfg : Config) (w : World) (p : Process) (goal : Release) :
    Decidable (TakesBack cfg w p goal) :=
  decidable_of_iff ((∃ deed ∈ (ticked cfg w p).deeds.drop p.deeds.length,
      deed.accepts goal = true) ∧ ∀ release ∈ inFlight (ticked cfg w p).state,
        release ≤ goal ∨ (ticked cfg w p).state.applied = some release)
    ⟨fun both => ⟨both.1, both.2⟩, fun both => ⟨both.accepted, both.alone⟩⟩

theorem TakesBack.stays {w : World} {p : Process} (founded : Founded cfg p.deeds p.state)
    (takesBack : TakesBack cfg w p goal) : Stays goal (ticked cfg w p).state := by
  obtain ⟨since, grown, -⟩ := (advances_ticked w founded).follows
  obtain ⟨deed, mem, accepts⟩ := takesBack.accepted
  rw [grown, List.drop_left] at mem
  cases deed with
  | accepted before st found =>
      have names : st.toRelease = goal := of_decide_eq_true accepts
      subst names
      obtain ⟨floor, target⟩ := accepted_ticked founded.targeted grown mem
      refine ⟨floor, ?_, ?_⟩
      · intro release same
        rw [target] at same
        cases same
        rfl
      · intro moving release goes
        apply takesBack.alone
        unfold inFlight
        rw [if_neg moving]
        exact goes
  | _ => cases accepts

/-- After an accepted rollback, while the pool names its target alone, the target is never below
the floor, unless a repair of the release above it that still runs commits. -/
theorem accepted_rollback_stays_possible (cfg : Config) (before : List Event) (w : World)
    (goal : Release) (takesBack : TakesBack cfg w (Process.fresh.run cfg before) goal)
    (after : List Event) (names : ∀ e ∈ after, NamesOnly goal e)
    (spared : Spared cfg goal ((Process.fresh.run cfg before).next cfg (.tick w)) after) :
    belowFloor (((Process.fresh.run cfg before).next cfg (.tick w)).run cfg after).state goal =
      false := by
  have trusted : Trusted cfg (Process.fresh.run cfg before) := trusted_run trusted_fresh before
  have stays := takesBack.stays trusted.state
  have standing : Standing cfg goal ((Process.fresh.run cfg before).next cfg (.tick w)) :=
    ⟨trusted_next trusted _, stays, stays⟩
  exact (standing_run standing names spared).state.admitted

/-- The pool relays a statement that takes the second release back. -/
def takingBack : World :=
  { naming 20 (vX 1 0 0) with
    relay := fun release =>
      .ok (some ⟨.ok (.current ⟨1, release, vX 2 0 0, none⟩ 0), ⟨[]⟩⟩) }

/-- The round it starts fails at its pull. -/
def pullFails : List Event :=
  [.tick (calmWorld 25),
    .tick { calmWorld 30 with
      engine := some { calmEngine with observe := .yes [], startPull := .noAnswer "" } }]

/-- An input changed while nothing was in flight: the release that runs is rendered again, and
committed. -/
def inputChanges : List Event :=
  [.tick { calmWorld 35 with inputs := "changed" }, .tick (calmWorld 40), .tick (calmWorld 45),
    .tick (calmWorld 50)]

theorem namesOnly_calm {w : World} (silent : w.answer = .noAnswer) (goal : Release) :
    NamesOnly goal (.tick w) := by
  intro s answered
  rw [silent] at answered
  cases answered

theorem accepted_rollback_tried_again :
    belowFloor (((Process.fresh.run oneService (firstRound (vX 2 0 0))).next oneService
      (.tick takingBack)).run oneService
        (pullFails ++ [.tick (naming 35 (vX 1 0 0)), .tick (calmWorld 40)])).state (vX 1 0 0) =
      false := by
  apply accepted_rollback_stays_possible
  · decide
  · intro e mem
    simp only [pullFails, List.cons_append, List.nil_append, List.mem_cons, List.not_mem_nil,
      or_false] at mem
    rcases mem with rfl | rfl | rfl | rfl
    · exact namesOnly_calm rfl _
    · exact namesOnly_calm rfl _
    · intro s answered release named
      cases answered
      cases named
      rfl
    · exact namesOnly_calm rfl _
  · decide

/-- The pull of the accepted rollback fails, an input changes before the pool is asked again, and
the repair of the release that runs commits: the target is below the floor, and the statement is
spent. -/
theorem accepted_rollback_stranded :
    TakesBack oneService takingBack (Process.fresh.run oneService (firstRound (vX 2 0 0)))
        (vX 1 0 0) ∧
      (∀ e ∈ pullFails ++ inputChanges, NamesOnly (vX 1 0 0) e) ∧
      belowFloor (((Process.fresh.run oneService (firstRound (vX 2 0 0))).next oneService
        (.tick takingBack)).run oneService (pullFails ++ inputChanges)).state (vX 1 0 0) = true ∧
      (((Process.fresh.run oneService (firstRound (vX 2 0 0))).next oneService
        (.tick takingBack)).run oneService (pullFails ++ inputChanges)).state.statementSeq =
          some 1 := by
  refine ⟨by decide, ?_, by decide, by decide⟩
  intro e mem
  simp only [pullFails, inputChanges, List.cons_append, List.nil_append, List.mem_cons,
    List.not_mem_nil, or_false] at mem
  rcases mem with rfl | rfl | rfl | rfl | rfl | rfl
  · exact namesOnly_calm rfl _
  · exact namesOnly_calm rfl _
  · exact namesOnly_calm rfl _
  · exact namesOnly_calm rfl _
  · exact namesOnly_calm rfl _
  · exact namesOnly_calm rfl _

end OmarchyPool.Agent
