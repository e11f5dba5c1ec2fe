/-
# OmarchyPool.Agent.Floor -- what the host trusts, over whole runs

Three places write the floor: an accepted statement lowers it, a commit raises it to the release
it commits, and a commit under a statement sets it.  The last never lowers it, because nothing
else can have raised the floor while that round was in flight (`Founded.down`).  And `applied`
only ever changes through a commit, whose round was started on grounds that are still among the
deeds, whatever preempted, resumed or restarted it since (`Founded.round`).

`Follows s t` is what may come after what: it relates a process's state to its later state, and
what `state.json` held to what it holds later.  Unsaved memory that a restart loses is not part
of the second.
-/
import OmarchyPool.Agent.Steps

namespace OmarchyPool.Agent

open OmarchyPool.Lib
open Relation (ReflTransGen)

set_option autoImplicit false

variable {cfg : Config}

/-! ## Grounds, kept as deeds -/

/-- The state a round to `target` was started in admitted it, with the co-signatures required. -/
structure Admitted (cfg : Config) (deeds : List Deed) (state : State) (target : Release)
    (found : Nat) : Prop where
  notRevoked : target ∉ state.revoked
  notBelow : AtLeast state.minRelease target
  aboveFloor : AtLeast state.floor target
  signed : cfg.policy.threshold ≤ found ∨ Vouched deeds cfg.policy.threshold target

/-- A round to `target` was started when it was admitted. -/
def StartedFor (cfg : Config) (deeds : List Deed) (target : Release) : Prop :=
  ∃ state found, .started state found ∈ deeds ∧ state.rollout.target = some target ∧
    Admitted cfg deeds state target found

/-- The deeds account for what a state holds. -/
structure Founded (cfg : Config) (deeds : List Deed) (s : State) : Prop where
  vouched : ∀ target, s.vouched = some target → Vouched deeds cfg.policy.threshold target
  /-- The round in flight is one that was started: of the release that runs, or of one that was
  admitted then. -/
  round : s.rollout.step ≠ .idle → ∃ target state found, s.rollout.target = some target ∧
    s.rollout.fromRelease = s.applied ∧ .started state found ∈ deeds ∧
    SameRound state.rollout s.rollout ∧
    (s.applied = some target ∨ Admitted cfg deeds state target found)
  /-- Under a round that goes down the floor is not above where it goes. -/
  down : s.rollout.step ≠ .idle → s.rollout.rollback = true → ∀ floor target,
    s.floor = some floor → s.rollout.target = some target → floor ≤ target
  applied : ∀ target, s.applied = some target → StartedFor cfg deeds target

/-- Since `s`, a statement above the last one it accepted lowered a floor that was not below its
floor. -/
def LoweredSince (since : List Deed) (s : State) : Prop :=
  ∃ before st found, .accepted before st found ∈ since ∧
    (∀ last, s.statementSeq = some last → last < st.seq) ∧
    (∀ last, before.statementSeq = some last → last < st.seq) ∧
    NotLower s.floor before.floor ∧
    ∃ floor, before.floor = some floor ∧ st.toRelease < floor ∧ floor ≤ st.retractsThrough

/-- What may come after `s`, `since` being the deeds done since. -/
structure Follows (cfg : Config) (deeds since : List Deed) (s t : State) : Prop where
  minRelease : NotLower s.minRelease t.minRelease
  revoked : s.revoked ⊆ t.revoked
  statementSeq : ∀ last, s.statementSeq = some last → ∃ now, t.statementSeq = some now ∧ last ≤ now
  floor : NotLower s.floor t.floor ∨ LoweredSince since s
  applied : t.applied = s.applied ∨ ∃ target, t.applied = some target ∧ StartedFor cfg deeds target

theorem Vouched.mono {deeds more : List Deed} {need : Nat} {target : Release}
    (vouched : Vouched deeds need target) (sub : deeds ⊆ more) : Vouched more need target := by
  obtain ⟨before, st, found, mem, names, enough⟩ := vouched
  exact ⟨before, st, found, sub mem, names, enough⟩

theorem Admitted.mono {deeds more : List Deed} {state : State} {target : Release} {found : Nat}
    (admitted : Admitted cfg deeds state target found) (sub : deeds ⊆ more) :
    Admitted cfg more state target found :=
  { admitted with signed := admitted.signed.imp_right fun vouched => vouched.mono sub }

theorem StartedFor.mono {deeds more : List Deed} {target : Release}
    (started : StartedFor cfg deeds target) (sub : deeds ⊆ more) :
    StartedFor cfg more target := by
  obtain ⟨state, found, mem, names, admitted⟩ := started
  exact ⟨state, found, sub mem, names, admitted.mono sub⟩

theorem Founded.mono {deeds more : List Deed} {s : State} (founded : Founded cfg deeds s)
    (sub : deeds ⊆ more) : Founded cfg more s where
  vouched := fun target known => (founded.vouched target known).mono sub
  round := by
    intro active
    obtain ⟨target, state, found, known, ran, mem, same, grounds⟩ := founded.round active
    exact ⟨target, state, found, known, ran, sub mem, same,
      grounds.imp_right fun admitted => admitted.mono sub⟩
  down := founded.down
  applied := fun target known => (founded.applied target known).mono sub

theorem Follows.mono {deeds moreDeeds since : List Deed} {s t : State}
    (follows : Follows cfg deeds since s t) (sub : deeds ⊆ moreDeeds) :
    Follows cfg moreDeeds since s t :=
  { follows with
    applied := follows.applied.imp_right fun ⟨target, known, started⟩ =>
      ⟨target, known, started.mono sub⟩ }

theorem Follows.of_same {deeds since : List Deed} {s t : State} (same : SameTrust s t) :
    Follows cfg deeds since s t where
  minRelease := same.minRelease ▸ NotLower.refl _
  revoked := same.revoked ▸ Finset.Subset.refl _
  statementSeq := fun last known => ⟨last, same.statementSeq.trans known, le_refl last⟩
  floor := Or.inl (same.floor ▸ NotLower.refl _)
  applied := Or.inl same.applied

theorem Follows.trans {deeds first second : List Deed} {s t u : State}
    (one : Follows cfg deeds first s t) (two : Follows cfg deeds second t u) :
    Follows cfg deeds (first ++ second) s u where
  minRelease := one.minRelease.trans two.minRelease
  revoked := one.revoked.trans two.revoked
  statementSeq := by
    intro last known
    obtain ⟨middle, between, up⟩ := one.statementSeq last known
    obtain ⟨now, after, further⟩ := two.statementSeq middle between
    exact ⟨now, after, le_trans up further⟩
  floor := by
    -- The first statement that lowered the floor is the one `s` stood under.
    rcases one.floor with kept | ⟨before, st, found, mem, rest⟩
    · rcases two.floor with still | ⟨before, st, found, mem, next, unspent, above, range⟩
      · exact Or.inl (kept.trans still)
      · refine Or.inr ⟨before, st, found, List.mem_append_right _ mem, ?_, unspent,
          kept.trans above, range⟩
        intro last known
        obtain ⟨middle, between, up⟩ := one.statementSeq last known
        exact lt_of_le_of_lt up (next middle between)
    · exact Or.inr ⟨before, st, found, List.mem_append_left _ mem, rest⟩
  applied := by
    rcases two.applied with same | changed
    · rw [same]
      exact one.applied
    · exact Or.inr changed

/-! ## One move -/

/-- The process went on: what it holds now is accounted for, and follows what it held. -/
structure Advances (cfg : Config) (p q : Process) : Prop where
  founded : Founded cfg q.deeds q.state
  follows : ∃ since, q.deeds = p.deeds ++ since ∧ Follows cfg q.deeds since p.state q.state
  saved : q.saved = p.saved

theorem Advances.deeds {p q : Process} (advances : Advances cfg p q) : p.deeds ⊆ q.deeds := by
  obtain ⟨since, deeds, -⟩ := advances.follows
  rw [deeds]
  exact List.subset_append_left _ _

theorem Advances.trans {p q r : Process} (one : Advances cfg p q) (two : Advances cfg q r) :
    Advances cfg p r where
  founded := two.founded
  follows := by
    obtain ⟨first, here, follows⟩ := one.follows
    obtain ⟨second, there, further⟩ := two.follows
    refine ⟨first ++ second, by rw [there, here, List.append_assoc], ?_⟩
    exact (follows.mono two.deeds).trans further
  saved := two.saved.trans one.saved

/-- Deeds were done, but nothing the host trusts has changed. -/
theorem advances_of_same {p q : Process} (founded : Founded cfg q.deeds q.state)
    (trust : SameTrust p.state q.state) (deeds : ∃ since, q.deeds = p.deeds ++ since)
    (saved : q.saved = p.saved) : Advances cfg p q := by
  obtain ⟨since, deeds⟩ := deeds
  exact ⟨founded, ⟨since, deeds, Follows.of_same trust⟩, saved⟩

theorem Advances.refl {p : Process} (founded : Founded cfg p.deeds p.state) : Advances cfg p p :=
  advances_of_same founded (SameTrust.refl _) ⟨[], (List.append_nil _).symm⟩ rfl

theorem Founded.of_same {deeds : List Deed} {s t : State} (founded : Founded cfg deeds s)
    (trust : SameTrust s t) (rollout : t.rollout = s.rollout) : Founded cfg deeds t where
  vouched := by rw [trust.vouched]; exact founded.vouched
  round := by rw [rollout, trust.applied]; exact founded.round
  down := by rw [rollout, trust.floor]; exact founded.down
  applied := by rw [trust.applied]; exact founded.applied

theorem Founded.targeted {deeds : List Deed} {s : State} (founded : Founded cfg deeds s) :
    Targeted s := by
  intro active
  obtain ⟨target, _, _, known, _⟩ := founded.round active
  rw [known]
  rfl

theorem advances_quiet {p q : Process} (founded : Founded cfg p.deeds p.state)
    (quiet : Quiet p q) : Advances cfg p q := by
  obtain ⟨more, deeds, -⟩ := quiet.deeds
  have sub : p.deeds ⊆ q.deeds := deeds ▸ List.subset_append_left _ _
  exact advances_of_same ((founded.mono sub).of_same quiet.trust quiet.rollout) quiet.trust
    ⟨more, deeds⟩ quiet.saved

theorem advances_orderMoves {now : Int} {most : Nat} {p q : Process}
    (founded : Founded cfg p.deeds p.state) (moves : OrderMoves now most p q) : Advances cfg p q := by
  induction moves with
  | refl => exact Advances.refl founded
  | quiet _ quiet ih =>
      have before := ih founded
      exact before.trans (advances_quiet before.founded quiet)
  | counted _ asks _ _ _ _ ih =>
      have before := ih founded
      refine before.trans ?_
      have same : ∀ s : State, SameTrust s { s with brake := s.brake.record now asks } :=
        fun s => ⟨rfl, rfl, rfl, rfl, rfl, rfl⟩
      have kept := (before.founded.mono (List.subset_append_left _ [.restarted now])).of_same
        (same _) rfl
      exact advances_of_same kept (same _) ⟨_, rfl⟩ rfl

theorem advances_merge {p : Process} (founded : Founded cfg p.deeds p.state) (m : Manifest) :
    Advances cfg p (p.setState (merge p.state m)) where
  founded := ⟨founded.vouched, founded.round, founded.down, founded.applied⟩
  follows := ⟨[], (List.append_nil _).symm, notLower_merge _ _, revoked_subset_merge _ _,
    fun last known => ⟨last, known, le_refl last⟩, Or.inl (NotLower.refl _), Or.inl rfl⟩
  saved := rfl

/-- An accepted statement is the one thing that lowers the floor. -/
theorem advances_accept {p : Process} (founded : Founded cfg p.deeds p.state) {st : Statement}
    {found : Cosigned} {vouches : Bool}
    (next : ∀ last, p.state.statementSeq = some last → last < st.seq)
    (range : ∃ floor, p.state.floor = some floor ∧ st.toRelease < floor ∧
      floor ≤ st.retractsThrough)
    (signed : vouches = true → cfg.policy.threshold ≤ found.count) :
    Advances cfg p (accept p st found vouches) := by
  have sub : p.deeds ⊆ (accept p st found vouches).deeds := List.subset_append_left _ _
  have deed : .accepted p.state st found.count ∈ (accept p st found vouches).deeds :=
    List.mem_append_right _ (List.mem_singleton.mpr rfl)
  refine ⟨⟨?_, ?_, ?_, ?_⟩, ⟨_, rfl, NotLower.refl _, Finset.Subset.refl _, ?_, ?_, Or.inl rfl⟩, rfl⟩
  · intro target known
    have shape : (accept p st found vouches).state.vouched =
        if vouches then some st.toRelease else none := rfl
    rw [shape] at known
    split at known
    · rename_i yes
      cases known
      exact ⟨p.state, st, found.count, deed, rfl, signed yes⟩
    · cases known
  · exact (founded.mono sub).round
  · intro active down floor target known names
    obtain ⟨old, was, below, -⟩ := range
    cases known
    exact le_trans (le_of_lt below) (founded.down active down old target was names)
  · exact (founded.mono sub).applied
  · intro last known
    exact ⟨st.seq, rfl, le_of_lt (next last known)⟩
  · exact Or.inr ⟨p.state, st, found.count, List.mem_singleton.mpr rfl, next, next,
      NotLower.refl _, range⟩

theorem advances_begin {now : Int} {p : Process} (founded : Founded cfg p.deeds p.state)
    {target : Release} {rollback braked : Bool} {found : Nat} (why : String)
    (grounds : Grounds cfg now p target rollback braked found) :
    Advances cfg p (beginRound p now target rollback braked found why) := by
  have sub : p.deeds ⊆ (beginRound p now target rollback braked found why).deeds :=
    List.subset_append_left _ _
  have deed : .started (beginRound p now target rollback braked found why).state found ∈
      (beginRound p now target rollback braked found why).deeds :=
    List.mem_append_right _ (List.mem_singleton.mpr rfl)
  refine advances_of_same ⟨?_, ?_, ?_, ?_⟩ ⟨rfl, rfl, rfl, rfl, rfl, rfl⟩ ⟨_, rfl⟩ rfl
  · exact (founded.mono sub).vouched
  · intro _
    refine ⟨target, _, found, rfl, rfl, deed, SameRound.refl _, ?_⟩
    cases grounds with
    | runs same => exact Or.inl same
    | admitted clear above signed _ _ =>
        refine Or.inr ⟨clear.notRevoked, clear.notBelow, above, ?_⟩
        exact signed.imp_right fun vouched => (founded.vouched target vouched).mono sub
    | rolledBack clear floor signed =>
        refine Or.inr ⟨clear.notRevoked, clear.notBelow, ?_, ?_⟩
        · intro bound known
          have same : p.state.floor = some bound := known
          rw [floor] at same
          cases same
          exact le_refl _
        · exact signed.imp_right fun vouched => vouched.mono sub
  · intro _ down floor' target' known names
    cases grounds with
    | runs _ => cases down
    | admitted _ _ _ _ _ => cases down
    | rolledBack _ floor _ =>
        have same : p.state.floor = some floor' := known
        rw [floor] at same
        cases same
        cases names
        exact le_refl _
  · exact (founded.mono sub).applied

theorem advances_move {now : Int} {named : Option Release} {p q : Process}
    (founded : Founded cfg p.deeds p.state) (move : Move cfg now named p q) : Advances cfg p q := by
  cases move with
  | quiet quiet => exact advances_quiet founded quiet
  | follow move =>
      cases move with
      | quiet quiet _ _ => exact advances_quiet founded quiet
      | noted soak =>
          have same : SameTrust p.state { p.state with target := named, soak := soak } :=
            ⟨rfl, rfl, rfl, rfl, rfl, rfl⟩
          exact advances_of_same (founded.of_same same rfl) same ⟨[], (List.append_nil _).symm⟩ rfl
      | merged m => exact advances_merge founded m
      | accepted st found vouches _ _ _ _ next range signed =>
          exact advances_accept founded next range signed
      | changed target _ _ =>
          have same : SameTrust p.state (countChange p now target).state :=
            ⟨rfl, rfl, rfl, rfl, rfl, rfl⟩
          have kept := (founded.mono (List.subset_append_left _ [.changed target now])).of_same
            same rfl
          exact advances_of_same kept same ⟨_, rfl⟩ rfl
      | begun why _ _ grounds => exact advances_begin founded why grounds

theorem advances_moves {now : Int} {named : Option Release} {p q : Process}
    (founded : Founded cfg p.deeds p.state) (moves : ReflTransGen (Move cfg now named) p q) : Advances cfg p q := by
  induction moves with
  | refl => exact Advances.refl founded
  | tail _ move ih => exact ih.trans (advances_move ih.founded move)

/-! ## One step of the round -/

/-- A round that goes on is still the one that was started. -/
theorem Founded.goes_on {deeds : List Deed} {s t : State} (founded : Founded cfg deeds s)
    (trust : SameTrust s t) (round : SameRound s.rollout t.rollout)
    (active : t.rollout.step ≠ .idle → s.rollout.step ≠ .idle) : Founded cfg deeds t where
  vouched := by rw [trust.vouched]; exact founded.vouched
  round := by
    intro moving
    obtain ⟨target, state, found, names, ran, mem, same, grounds⟩ := founded.round (active moving)
    rw [trust.applied, round.target, round.fromRelease]
    exact ⟨target, state, found, names, ran, mem, same.trans round, grounds⟩
  down := by
    intro moving rolls
    rw [round.rollback] at rolls
    rw [trust.floor, round.target]
    exact founded.down (active moving) rolls
  applied := by rw [trust.applied]; exact founded.applied

/-- A round that is over leaves nothing to account for but what runs. -/
theorem Founded.isOver {deeds : List Deed} {s : State} {now : Int} (rollout : s.rollout = .ended now)
    (vouched : ∀ target, s.vouched = some target → Vouched deeds cfg.policy.threshold target)
    (applied : ∀ target, s.applied = some target → StartedFor cfg deeds target) :
    Founded cfg deeds s where
  vouched := vouched
  round := fun moving => absurd (congrArg Rollout.step rollout) moving
  down := fun moving => absurd (congrArg Rollout.step rollout) moving
  applied := applied

/-- A commit never lowers the floor: under a round that goes down it is not above the target. -/
theorem Founded.committedFloor {deeds : List Deed} {s : State} (founded : Founded cfg deeds s)
    {target : Release} (active : s.rollout.step ≠ .idle) (names : s.rollout.target = some target) :
    NotLower s.floor (some (committedFloor s target)) := by
  intro floor known
  refine ⟨_, rfl, ?_⟩
  unfold Agent.committedFloor
  split
  · rename_i rolls
    exact founded.down active rolls floor target known names
  · rw [known]
    exact le_max_left _ _

/-- What a commit makes the running release was started for, or ran already. -/
theorem Founded.commits {deeds : List Deed} {s : State} (founded : Founded cfg deeds s)
    {target : Release} (active : s.rollout.step ≠ .idle) (names : s.rollout.target = some target) :
    StartedFor cfg deeds target := by
  obtain ⟨started, state, found, known, -, mem, same, grounds⟩ := founded.round active
  rw [names] at known
  cases known
  rcases grounds with runs | admitted
  · exact founded.applied target runs
  · exact ⟨state, found, mem, same.target.symm.trans names, admitted⟩

theorem advances_stepped {now : Int} {p : Process} {work : Work}
    (founded : Founded cfg p.deeds p.state)
    (stepped : Stepped now p.state work.state work.deeds) :
    Advances cfg p (performed p work) := by
  have grown : Founded cfg (p.deeds ++ work.deeds) p.state :=
    founded.mono (List.subset_append_left _ _)
  generalize shape : work.deeds = deeds at stepped grown
  have deedsAre : (performed p work).deeds = p.deeds ++ deeds := by rw [← shape]; rfl
  have stateIs : (performed p work).state = work.state := rfl
  have savedIs : (performed p work).saved = p.saved := rfl
  rw [← deedsAre] at grown
  rw [← stateIs] at stepped
  generalize performed p work = q at deedsAre stateIs savedIs grown stepped
  cases stepped with
  | kept trust _ _ round _ idle _ =>
      refine advances_of_same (grown.goes_on trust round ?_) trust ⟨_, deedsAre⟩ savedIs
      intro moving still
      exact moving (by rw [idle still]; exact still)
  | counted trust _ _ round _ active _ =>
      exact advances_of_same (grown.goes_on trust round fun _ => active) trust ⟨_, deedsAre⟩ savedIs
  | ended trust _ _ isOver =>
      refine advances_of_same (Founded.isOver isOver ?_ ?_) trust ⟨_, deedsAre⟩ savedIs
      · rw [trust.vouched]
        exact grown.vouched
      · rw [trust.applied]
        exact grown.applied
  | committed step names floor minRelease revoked statementSeq vouched applied _ _ isOver =>
      have active : p.state.rollout.step ≠ .idle := by rw [step]; exact fun same => nomatch same
      have started := grown.commits active names
      refine ⟨Founded.isOver isOver ?_ ?_, ⟨_, deedsAre, ?_, ?_, ?_, ?_, ?_⟩, savedIs⟩
      · intro target known
        rcases vouched with same | none
        · exact grown.vouched target (same ▸ known)
        · rw [none] at known
          cases known
      · intro target known
        rw [applied] at known
        cases known
        exact started
      · rw [minRelease]
        exact NotLower.refl _
      · rw [revoked]
      · intro last known
        exact ⟨last, statementSeq.trans known, le_refl last⟩
      · rw [floor]
        exact Or.inl (founded.committedFloor active names)
      · exact Or.inr ⟨_, applied, started⟩

/-! ## Ticks, restarts, runs -/

theorem advances_acting (w : World) {p : Process} (founded : Founded cfg p.deeds p.state) :
    Advances cfg p (acting cfg w p) := by
  obtain ⟨mid, orders, moves⟩ := acting_moves (w := w) p founded.targeted
  have first := advances_orderMoves founded orders
  exact first.trans (advances_moves first.founded moves)

theorem advances_ticked (w : World) {p : Process} (founded : Founded cfg p.deeds p.state) :
    Advances cfg p (ticked cfg w p) := by
  have acted := advances_acting w founded
  have stepped := advances_stepped acted.founded (@workOf_stepped cfg w (acting cfg w p))
  exact (acted.trans stepped).trans (advances_quiet stepped.founded (closing_quiet _))

theorem advances_failedAfter (w : World) (done : Nat) {p : Process}
    (founded : Founded cfg p.deeds p.state) : Advances cfg p (failedAfter cfg w done p) := by
  have acted := advances_acting w founded
  have broken : Advances cfg (acting cfg w p) { acting cfg w p with
      disk := (acting cfg w p).disk.after ((workOf cfg w (acting cfg w p)).ops.take done) } :=
    advances_of_same acted.founded (SameTrust.refl _) ⟨[], (List.append_nil _).symm⟩ rfl
  exact (acted.trans broken).trans (advances_quiet broken.founded (closing_quiet _))

theorem advances_brokenOff (w : World) (done : Nat) {p : Process}
    (founded : Founded cfg p.deeds p.state) : Advances cfg p (brokenOff cfg w done p) := by
  unfold brokenOff
  split
  · exact advances_ticked w founded
  · exact advances_failedAfter w done founded

/-- Timing a step again, or beginning a guard again, leaves the round the one it was. -/
theorem resume_spec (s : State) (now : Int) :
    SameTrust s (resume s now) ∧ SameRound s.rollout (resume s now).rollout ∧
      ((resume s now).rollout.step ≠ .idle → s.rollout.step ≠ .idle) := by
  unfold resume
  split
  · rename_i step
    refine ⟨⟨rfl, rfl, rfl, rfl, rfl, rfl⟩, ⟨rfl, rfl, rfl, rfl, rfl⟩, ?_⟩
    intro _ idle
    rw [step] at idle
    cases idle
  · rename_i step
    refine ⟨⟨rfl, rfl, rfl, rfl, rfl, rfl⟩, ⟨rfl, rfl, rfl, rfl, rfl⟩, ?_⟩
    intro _ idle
    rw [step] at idle
    cases idle
  · rename_i step
    refine ⟨⟨rfl, rfl, rfl, rfl, rfl, rfl⟩, ⟨rfl, rfl, rfl, rfl, rfl⟩, ?_⟩
    intro _ idle
    rw [step] at idle
    cases idle
  · exact ⟨SameTrust.refl s, SameRound.refl _, id⟩

/-- What holds between two events: the deeds account for the state in memory and for the one in
`state.json`, and the first follows the second. -/
structure Trusted (cfg : Config) (p : Process) : Prop where
  state : Founded cfg p.deeds p.state
  saved : Founded cfg p.deeds p.saved
  unsaved : ∃ before since, p.deeds = before ++ since ∧
    Follows cfg p.deeds since p.saved p.state

theorem trusted_fresh : Trusted cfg Process.fresh := by
  have founded : Founded cfg [] State.fresh :=
    Founded.isOver rfl (fun _ known => by cases known) (fun _ known => by cases known)
  exact ⟨founded, founded, [], [], rfl, Follows.of_same (SameTrust.refl _)⟩

theorem trusted_restarted {p : Process} (saved : Founded cfg p.deeds p.saved) (time : Int) :
    Trusted cfg (restarted time p) := by
  obtain ⟨trust, round, active⟩ := resume_spec p.saved time
  exact ⟨saved.goes_on trust round active, saved, p.deeds, [], (List.append_nil _).symm,
    Follows.of_same trust⟩

theorem trusted_advances {p q : Process} (trusted : Trusted cfg p) (advances : Advances cfg p q) :
    Trusted cfg q := by
  obtain ⟨before, since, deeds, follows⟩ := trusted.unsaved
  obtain ⟨more, grows, further⟩ := advances.follows
  refine ⟨advances.founded, ?_, before, since ++ more, ?_, ?_⟩
  · rw [advances.saved]
    exact trusted.saved.mono advances.deeds
  · rw [grows, deeds, List.append_assoc]
  · rw [advances.saved]
    exact (follows.mono advances.deeds).trans further

theorem trusted_next {p : Process} (trusted : Trusted cfg p) (e : Event) :
    Trusted cfg (p.next cfg e) := by
  cases e with
  | tick w =>
      have founded := (advances_ticked w trusted.state).founded
      exact ⟨founded, founded, (ticked cfg w p).deeds, [], (List.append_nil _).symm,
        Follows.of_same (SameTrust.refl _)⟩
  | unsaved w done => exact trusted_advances trusted (advances_brokenOff w done trusted.state)
  | dies w done time =>
      have broken := trusted_advances trusted (advances_brokenOff w done trusted.state)
      exact trusted_restarted broken.saved time
  | restart time => exact trusted_restarted trusted.saved time

theorem trusted_run {p : Process} (trusted : Trusted cfg p) (events : List Event) :
    Trusted cfg (p.run cfg events) := by
  induction events generalizing p with
  | nil => exact trusted
  | cons e rest ih => exact ih (trusted_next trusted e)

/-- The round in flight commits `target`, and was started when `target` was admitted. -/
structure Committing (cfg : Config) (p : Process) (target : Release) : Prop where
  step : p.state.rollout.step = .commit
  names : p.state.rollout.target = some target
  admitted : ∃ state found, .started state found ∈ p.deeds ∧
    SameRound state.rollout p.state.rollout ∧ Admitted cfg p.deeds state target found

/-- The running release changes in a commit, and in nothing else. -/
theorem ticked_applied (w : World) {p : Process} (founded : Founded cfg p.deeds p.state)
    (changed : (ticked cfg w p).state.applied ≠ p.state.applied) :
    ∃ target, (ticked cfg w p).state.applied = some target ∧ Committing cfg p target := by
  have acted : (acting cfg w p).state.applied = p.state.applied := acting_applied p founded.targeted
  have closed : (ticked cfg w p).state.applied = (workOf cfg w (acting cfg w p)).state.applied :=
    (closing_quiet _).trust.applied
  have stepped := @workOf_stepped cfg w (acting cfg w p)
  generalize (workOf cfg w (acting cfg w p)).deeds = deeds at stepped
  rw [closed] at changed ⊢
  cases stepped with
  | kept trust _ _ _ _ _ _ => exact absurd (trust.applied.trans acted) changed
  | counted trust _ _ _ _ _ _ => exact absurd (trust.applied.trans acted) changed
  | ended trust _ _ _ => exact absurd (trust.applied.trans acted) changed
  | @committed target step names _ _ _ _ _ applied _ _ _ =>
      -- A round at its commit is not preempted, so it is the round the tick began with.
      have same : (acting cfg w p).state.rollout = p.state.rollout := by
        rcases @acting_rollout cfg w p founded.targeted with same | ⟨render, -⟩
        · exact same
        · rw [step] at render
          cases render
      rw [same] at step names
      have active : p.state.rollout.step ≠ .idle := by rw [step]; exact fun same => nomatch same
      obtain ⟨started, state, found, known, -, mem, same, grounds⟩ := founded.round active
      rw [names] at known
      cases known
      refine ⟨target, applied, step, names, state, found, mem, same, ?_⟩
      rcases grounds with runs | admitted
      · exact absurd (applied.trans runs.symm) changed
      · exact admitted

theorem failedAfter_applied (w : World) (done : Nat) {p : Process}
    (targeted : Targeted p.state) : (failedAfter cfg w done p).state.applied = p.state.applied :=
  (closing_quiet _).trust.applied.trans (acting_applied p targeted)

/-- What the host trusts, at every event of every run.  Whatever happens, what `state.json` holds
after follows what it held.  A tick moves the state in memory the same way, and changes the
running release only by the commit of a round that was admitted when it was started; a restart
goes back to what was saved. -/
theorem trust_follows_over_runs (cfg : Config) (events : List Event) (e : Event) :
    let p := Process.fresh.run cfg events
    let q := p.next cfg e
    (∃ before since, q.deeds = before ++ since ∧ Follows cfg q.deeds since p.saved q.saved) ∧
      match e with
      | .tick _ | .unsaved _ _ =>
          (∃ since, q.deeds = p.deeds ++ since ∧ Follows cfg q.deeds since p.state q.state) ∧
            (q.state.applied ≠ p.state.applied →
              ∃ target, q.state.applied = some target ∧ Committing cfg p target)
      | .dies _ _ _ | .restart _ => SameTrust q.saved q.state := by
  intro p q
  have trusted : Trusted cfg p := trusted_run trusted_fresh events
  have untouched : ∀ deeds : List Deed, ∃ before since, deeds = before ++ since ∧
      Follows cfg deeds since p.saved p.saved :=
    fun deeds => ⟨deeds, [], (List.append_nil _).symm, Follows.of_same (SameTrust.refl _)⟩
  cases e with
  | tick w =>
      have ticks := advances_ticked w trusted.state
      obtain ⟨since, deeds, follows⟩ := ticks.follows
      refine ⟨?_, ⟨since, deeds, follows⟩, ticked_applied w trusted.state⟩
      exact (trusted_advances trusted ticks).unsaved.imp fun _ ⟨since, deeds, follows⟩ =>
        ⟨since, deeds, ticks.saved ▸ follows⟩
  | unsaved w done =>
      have broken := advances_brokenOff w done trusted.state
      have kept : q.saved = p.saved := broken.saved
      refine ⟨?_, broken.follows, ?_⟩
      · rw [kept]
        exact untouched _
      · intro changed
        by_cases through : reaches cfg w done p = true
        · have shape : q = ticked cfg w p := if_pos through
          rw [shape] at changed ⊢
          exact ticked_applied w trusted.state changed
        · have shape : q = failedAfter cfg w done p := if_neg through
          rw [shape] at changed
          exact absurd (failedAfter_applied w done trusted.state.targeted) changed
  | dies w done time =>
      have kept : q.saved = p.saved := (advances_brokenOff w done trusted.state).saved
      refine ⟨?_, ?_⟩
      · rw [kept]
        exact untouched _
      · exact (resume_spec _ time).1
  | restart time => exact ⟨untouched _, (resume_spec _ time).1⟩

end OmarchyPool.Agent
