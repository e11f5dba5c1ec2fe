/-
# OmarchyPool.Agent.SelfUpdate -- the agent replaces itself

A higher agent is downloaded, tested and swapped in: `pending` is written, `previous` and then
`current` are pointed, and the service manager starts what `current` names.  The new agent counts
its starts in `pending` before it does anything else, goes back to the agent it replaced at its
third start or past its deadline, and removes `pending` once its health gate passes.  The agent it
went back to writes down which version it skips from then on.

Each of these is a list of operations on what the disk holds, and the process may die before any
of them.  `tested`, `trial` and `deeds` are no file: they keep what happened, for the theorems.
A binary is known by its SHA-256.
-/
import OmarchyPool.Agent.State
import OmarchyPool.Lib.OrderedMap

namespace OmarchyPool.Agent.SelfUpdate

open OmarchyPool.Lib

set_option autoImplicit false

/-- How long a new agent has to pass its health gate. -/
def deadlineS : Int := 600
/-- Starts a new agent may make without passing the gate. -/
def maxTries : Nat := 2
def gateEveryS : Int := 30
/-- Agent versions kept under `versions/`. -/
def keepVersions : Nat := 3

/-- The self-update in flight, in `pending`. -/
structure Pending where
  fromAgent : Version
  toAgent : Version
  tries : Nat
  deadline : Int
  deriving DecidableEq

/-- Why an agent was swapped in: a bundle that ships a higher one, or a rollback statement. -/
inductive Kind where
  | upgrade
  | agentTo
  deriving DecidableEq

inductive Deed where
  | swapped (kind : Kind) (agent : Version)
  | passed (agent : Version)
  /-- `current` points at `old` again, and `agent` is rolled back. -/
  | back (old agent : Version)
  deriving DecidableEq

/-- A candidate that was swapped in and neither passed its gate nor was rolled back: when it was
let run. -/
structure Trial where
  fromAgent : Version
  toAgent : Version
  deadline : Int
  starts : List Int
  deriving DecidableEq

/-- What the data directory holds. -/
structure Home where
  current : Version
  previous : Option Version
  pending : Option Pending
  /-- `versions/`, with the hash of the agent in each. -/
  binaries : OrderedMap Version String
  /-- `agent_skip` of `state.json`. -/
  skip : Option Version
  tested : List (Version × String)
  trial : Option Trial
  deeds : List Deed

inductive Op where
  | pending (p : Pending)
  | removePending
  | binary (v : Version) (sha : String)
  | remove (v : Version)
  | previous (v : Version)
  /-- `current` pointed at the agent that replaces this one. -/
  | swap (kind : Kind) (p : Pending)
  /-- `current` pointed at the agent that was replaced. -/
  | back (p : Pending)
  | skip (v : Version)
  /-- `pending` removed by the gate. -/
  | passed (v : Version)
  /-- The self-test answered `ok`. -/
  | tested (v : Version)
  /-- A start that was counted and let run. -/
  | ran (v : Version) (time : Int)
  deriving DecidableEq

def Op.run (h : Home) : Op → Home
  | .pending p => { h with pending := some p }
  | .removePending => { h with pending := none }
  | .binary v sha => { h with binaries := h.binaries.set v sha }
  | .remove v => { h with binaries := h.binaries.delete v }
  | .previous v => { h with previous := some v }
  | .swap kind p =>
      { h with
        current := p.toAgent
        trial := some ⟨p.fromAgent, p.toAgent, p.deadline, []⟩
        deeds := h.deeds ++ [.swapped kind p.toAgent] }
  | .back p =>
      { h with
        current := p.fromAgent
        trial := none
        deeds := h.deeds ++ [.back p.fromAgent p.toAgent] }
  | .skip v => { h with skip := some v }
  | .passed v =>
      { h with pending := none, trial := none, deeds := h.deeds ++ [.passed v] }
  | .tested v =>
      match h.binaries.get v with
      | some sha => { h with tested := (v, sha) :: h.tested }
      | none => h
  | .ran v time =>
      { h with trial := h.trial.map fun t =>
          if t.toAgent = v then { t with starts := time :: t.starts } else t }

def Home.after (h : Home) (ops : List Op) : Home := ops.foldl Op.run h

/-- The agent that runs: its version, and its health gate while it is shut. -/
structure Running where
  version : Version
  gate : Option Pending
  gateNext : Int

structure Machine where
  home : Home
  agent : Option Running

/-! ## Starts -/

/-- The first lines of `run`: the operations, and whether the agent is let run. -/
def countStart (h : Home) (me : Version) (now : Int) : List Op × Bool :=
  match h.pending with
  | none => ([], true)
  | some p =>
      if p.toAgent ≠ me then ([], true)
      else
        let p := { p with tries := p.tries + 1 }
        if p.tries ≤ maxTries ∧ now ≤ p.deadline then ([.pending p], true)
        else ([.pending p, .back p], false)

/-- After the state is loaded: the operations, and the gate that is opened. -/
def settle (h : Home) (me : Version) : List Op × Option Pending :=
  match h.pending with
  | none => ([], none)
  | some p =>
      if p.toAgent = me then ([], some p)
      else if p.fromAgent = me ∧ p.tries > 0 then
        ([.skip ((h.skip.map fun s => max s p.toAgent).getD p.toAgent), .removePending], none)
      else ([.removePending], none)

/-- A candidate whose configuration is refused gives up on itself. -/
def flipBack (h : Home) (me : Version) : List Op :=
  match h.pending with
  | some p => if p.toAgent = me then [.back p] else []
  | none => []

/-- The service manager starts what `current` names; a second agent beside one that runs is no
start of it. -/
def start (m : Machine) (now : Int) (refused : Bool) : List Op × Option Running :=
  match m.agent with
  | some agent => ([], some agent)
  | none =>
      let me := m.home.current
      match countStart m.home me now with
      | (ops, false) => (ops, none)
      | (ops, true) =>
          let ops := ops ++ [.ran me now]
          let h := m.home.after ops
          if refused then (ops ++ flipBack h me, none)
          else
            let (more, gate) := settle h me
            (ops ++ more, some ⟨me, gate, 0⟩)

/-! ## The health gate -/

/-- The versions a pass of the gate removes: all but this agent, `previous` and the newest others,
three in all. -/
def pruned : List Version → List Version → List Version
  | _, [] => []
  | keep, v :: rest =>
      if v ∈ keep then pruned keep rest
      else if keep.length < keepVersions then pruned (keep ++ [v]) rest
      else v :: pruned keep rest

def pruneVersions (h : Home) (me : Version) : List Op :=
  (pruned (me :: h.previous.toList)
    ((h.binaries.map Prod.fst).mergeSort fun a b => decide (b ≤ a))).map .remove

def gateStep (m : Machine) (now : Int) (healthy : Bool) : List Op × Option Running :=
  match m.agent with
  | some ⟨me, some p, next⟩ =>
      if now > p.deadline then ([.back p], none)
      else if now < next then ([], m.agent)
      else if healthy then
        (.passed me :: pruneVersions m.home me, some ⟨me, none, now + gateEveryS⟩)
      else ([], some ⟨me, some p, now + gateEveryS⟩)
  | agent => ([], agent)

/-! ## The swap -/

/-- An agent that a verified bundle ships, and what the host and GitHub answer about it. -/
structure Offer where
  version : Version
  /-- The asset's hash, where the release ships one for this platform. -/
  sha : Option String
  /-- This agent runs from where install.sh installs it. -/
  runsThere : Bool
  /-- The hash of what was downloaded. -/
  download : Option String
  selfTest : Bool

/-- The binary of the offer, where it is not there with its hash yet. -/
def fetch (h : Home) (offer : Offer) (sha : String) : Option (List Op) :=
  if h.binaries.get offer.version = some sha then some []
  else if offer.download = some sha then some [.binary offer.version sha]
  else none

/-- The operations, and whether the agent exits for the swapped one. -/
def downloadTestSwap (h : Home) (me : Version) (kind : Kind) (offer : Offer) (now : Int) :
    List Op × Bool :=
  match offer.sha with
  | none => ([], false)
  | some sha =>
      if offer.runsThere = false ∨ h.current ≠ me ∨ (h.binaries.get me).isNone then ([], false)
      else
        match fetch h offer sha with
        | none => ([], false)
        | some fetched =>
            if offer.selfTest then
              let p : Pending := ⟨me, offer.version, 0, now + deadlineS⟩
              (fetched ++ [.tested offer.version, .pending p, .previous me, .swap kind p], true)
            else (fetched, false)

/-- The agent moves upward past every version rolled back here, and down under a statement. -/
def asks (h : Home) (me : Version) (kind : Kind) (offer : Offer) : Bool :=
  match kind with
  | .upgrade => decide (me < offer.version) && h.skip.all fun s => decide (s < offer.version)
  | .agentTo => decide (offer.version < me)

def moveAgent (m : Machine) (kind : Kind) (offer : Offer) (now : Int) : List Op × Option Running :=
  match m.agent with
  | some ⟨me, none, _⟩ =>
      if asks m.home me kind offer then
        let swap := downloadTestSwap m.home me kind offer now
        (swap.1, if swap.2 then none else m.agent)
      else ([], m.agent)
  | agent => ([], agent)

/-! ## Runs -/

inductive Act where
  | start (now : Int) (refused : Bool)
  | gate (now : Int) (healthy : Bool)
  | move (kind : Kind) (offer : Offer) (now : Int)

def program (m : Machine) : Act → List Op × Option Running
  | .start now refused => start m now refused
  | .gate now healthy => gateStep m now healthy
  | .move kind offer now => moveAgent m kind offer now

/-- What happens, and after how many of its operations the process dies, if it does. -/
structure Event where
  act : Act
  dies : Option Nat

def Machine.next (m : Machine) (e : Event) : Machine :=
  match e.dies with
  | none => ⟨m.home.after (program m e.act).1, (program m e.act).2⟩
  | some done => ⟨m.home.after ((program m e.act).1.take done), none⟩

def Machine.run (m : Machine) (events : List Event) : Machine := events.foldl Machine.next m

/-- The directory of `v` holds an agent that answered its self-test. -/
def Holds (h : Home) (v : Version) : Prop :=
  ∃ sha, h.binaries.get v = some sha ∧ (v, sha) ∈ h.tested

/-- A host where the agent `v` was installed. -/
def Machine.installed (v : Version) (sha : String) (skip : Option Version) : Machine where
  home := ⟨v, none, none, [(v, sha)], skip, [(v, sha)], none, []⟩
  agent := none

/-! ## One operation -/

/-- What holds of the data directory whenever the process may die. -/
structure Kept (h : Home) : Prop where
  holds : Holds h h.current
  pending : ∀ p, h.pending = some p → p.fromAgent ≠ p.toAgent ∧ Holds h p.fromAgent ∧
    (h.current = p.toAgent ∨ h.current = p.fromAgent)
  trial : ∀ t, h.trial = some t → ∃ p, h.pending = some p ∧ h.current = p.toAgent ∧
    t.fromAgent = p.fromAgent ∧ t.toAgent = p.toAgent ∧ t.deadline = p.deadline ∧
    t.starts.length ≤ p.tries ∧ t.starts.length ≤ maxTries ∧ ∀ time ∈ t.starts, time ≤ p.deadline
  /-- A version rolled back is skipped, or `pending` still says so to the agent that starts. -/
  rolled : ∀ old v, .back old v ∈ h.deeds → (∃ s, h.skip = some s ∧ v ≤ s) ∨
    ∃ p, h.pending = some p ∧ p.toAgent = v ∧ 0 < p.tries ∧ h.current = p.fromAgent
  again : h.deeds.Pairwise fun d e => ∀ old v, d = .back old v → e ≠ .swapped .upgrade v

/-- When an operation is done. -/
def Allowed (h : Home) : Op → Prop
  | .pending p => (∃ q, h.pending = some q ∧ p = { q with tries := q.tries + 1 } ∧
        h.current = q.toAgent) ∨
      h.pending = none ∧ p.fromAgent = h.current ∧ p.fromAgent ≠ p.toAgent
  | .removePending => ∀ p, h.pending = some p → h.current = p.fromAgent ∧
      (p.tries = 0 ∨ ∃ s, h.skip = some s ∧ p.toAgent ≤ s)
  | .binary v _ => h.current ≠ v ∧ h.pending = none
  | .remove v => h.current ≠ v ∧ h.pending = none
  | .previous _ => True
  | .swap kind p => h.pending = some p ∧ h.current = p.fromAgent ∧ p.tries = 0 ∧
      Holds h p.toAgent ∧ (kind = .upgrade → ∀ s, h.skip = some s → s < p.toAgent)
  | .back p => h.pending = some p ∧ h.current = p.toAgent ∧ 0 < p.tries
  | .skip v => ∀ s, h.skip = some s → s ≤ v
  | .passed v => h.current = v ∧ ∀ p, h.pending = some p → h.current = p.toAgent
  | .tested _ => True
  | .ran _ time => ∀ p t, h.pending = some p → h.trial = some t →
      t.starts.length < p.tries ∧ p.tries ≤ maxTries ∧ time ≤ p.deadline

section Ops

variable {h : Home}

theorem Holds.set {v w : Version} (holds : Holds h v) (other : v ≠ w) (sha : String) :
    Holds { h with binaries := h.binaries.set w sha } v := by
  obtain ⟨found, isThere, passed⟩ := holds
  refine ⟨found, ?_, passed⟩
  show OrderedMap.get v (h.binaries.set w sha) = some found
  rw [OrderedMap.get_set, if_neg (Ne.symm other)]
  exact isThere

theorem Holds.delete {v w : Version} (holds : Holds h v) (other : v ≠ w) :
    Holds { h with binaries := h.binaries.delete w } v := by
  obtain ⟨found, isThere, passed⟩ := holds
  refine ⟨found, ?_, passed⟩
  show OrderedMap.get v (h.binaries.delete w) = some found
  rw [OrderedMap.get_delete, if_neg (Ne.symm other)]
  exact isThere

theorem pairwise_snoc {deeds : List Deed} {d : Deed}
    (again : deeds.Pairwise fun d e => ∀ old v, d = .back old v → e ≠ .swapped .upgrade v)
    (last : ∀ old v, .back old v ∈ deeds → d ≠ .swapped .upgrade v) :
    (deeds ++ [d]).Pairwise fun d e => ∀ old v, d = .back old v → e ≠ .swapped .upgrade v := by
  refine List.pairwise_append.mpr ⟨again, List.pairwise_singleton _ _, ?_⟩
  intro e mem f single old v isBack
  rw [List.mem_singleton.mp single]
  subst isBack
  exact last old v mem

/-- No trial is open, or `current` is at the candidate. -/
theorem Kept.noTrial (kept : Kept h) (closed : ∀ p, h.pending = some p → h.current ≠ p.toAgent) :
    h.trial = none := by
  cases shape : h.trial with
  | none => rfl
  | some t =>
      obtain ⟨p, pending, current, -⟩ := kept.trial t shape
      exact absurd current (closed p pending)

theorem kept_pending (kept : Kept h) {p : Pending} (allowed : Allowed h (.pending p)) :
    Kept (Op.run h (.pending p)) := by
  rcases allowed with ⟨q, pending, rfl, current⟩ | ⟨none, from_, differ⟩
  · -- A start is counted.
    obtain ⟨differ, holds, -⟩ := kept.pending q pending
    refine ⟨kept.holds, ?_, ?_, ?_, kept.again⟩
    · intro p same
      cases same
      exact ⟨differ, holds, Or.inl current⟩
    · intro t open_
      obtain ⟨p, same, -, from_, to_, deadline, few, most, times⟩ := kept.trial t open_
      rw [pending] at same
      cases same
      exact ⟨_, rfl, current, from_, to_, deadline, Nat.le_succ_of_le few, most, times⟩
    · intro old v back
      rcases kept.rolled old v back with skipped | ⟨p, same, -, -, atFrom⟩
      · exact Or.inl skipped
      · rw [pending] at same
        cases same
        exact absurd (atFrom.symm.trans current) differ
  · -- A swap is announced.
    have noTrial := kept.noTrial (fun p some => (by rw [none] at some; cases some))
    refine ⟨kept.holds, ?_, ?_, ?_, kept.again⟩
    · intro q same
      cases same
      exact ⟨differ, from_ ▸ kept.holds, Or.inr from_.symm⟩
    · intro t open_
      have here : h.trial = some t := open_
      rw [noTrial] at here
      cases here
    · intro old v back
      rcases kept.rolled old v back with skipped | ⟨p, some, -⟩
      · exact Or.inl skipped
      · rw [none] at some
        cases some

theorem kept_removePending (kept : Kept h) (allowed : Allowed h .removePending) :
    Kept (Op.run h .removePending) := by
  have noTrial := kept.noTrial (by
    intro p some current
    have atFrom := (allowed p some).1
    exact (kept.pending p some).1 (atFrom.symm.trans current))
  refine ⟨kept.holds, fun _ same => (by cases same), ?_, ?_, kept.again⟩
  · intro t open_
    have here : h.trial = some t := open_
    rw [noTrial] at here
    cases here
  · intro old v back
    rcases kept.rolled old v back with skipped | ⟨p, some, rfl, counted, -⟩
    · exact Or.inl skipped
    · rcases (allowed p some).2 with zero | skipped
      · omega
      · exact Or.inl skipped

theorem kept_binaries (kept : Kept h) (none : h.pending = none)
    {binaries : OrderedMap Version String}
    (holds : Holds { h with binaries := binaries } h.current) :
    Kept { h with binaries := binaries } := by
  refine ⟨holds, ?_, ?_, kept.rolled, kept.again⟩
  · intro p same
    have here : h.pending = some p := same
    rw [none] at here
    cases here
  · intro t open_
    obtain ⟨p, same, -⟩ := kept.trial t open_
    rw [none] at same
    cases same

theorem kept_swap (kept : Kept h) {kind : Kind} {p : Pending} (allowed : Allowed h (.swap kind p)) :
    Kept (Op.run h (.swap kind p)) := by
  obtain ⟨pending, current, zero, holds, above⟩ := allowed
  obtain ⟨differ, holdsFrom, -⟩ := kept.pending p pending
  -- Nothing is waiting to be recorded: `pending` is of a swap that is only beginning.
  have skipped : ∀ old v, .back old v ∈ h.deeds → ∃ s, h.skip = some s ∧ v ≤ s := by
    intro old v back
    rcases kept.rolled old v back with skipped | ⟨q, same, -, counted, -⟩
    · exact skipped
    · rw [pending] at same
      cases same
      omega
  refine ⟨holds, ?_, ?_, ?_, ?_⟩
  · intro q same
    have here : h.pending = some q := same
    rw [pending] at here
    cases here
    exact ⟨differ, holdsFrom, Or.inl rfl⟩
  · intro t open_
    cases open_
    exact ⟨p, pending, rfl, rfl, rfl, rfl, Nat.zero_le _, Nat.zero_le _, fun _ mem => (by cases mem)⟩
  · intro old v back
    rcases List.mem_append.mp back with earlier | last
    · exact Or.inl (skipped old v earlier)
    · cases List.mem_singleton.mp last
  · refine pairwise_snoc kept.again ?_
    intro old v back same
    cases same
    obtain ⟨s, isSkip, below⟩ := skipped old _ back
    exact absurd below (not_le_of_gt (above rfl s isSkip))

theorem kept_back (kept : Kept h) {p : Pending} (allowed : Allowed h (.back p)) :
    Kept (Op.run h (.back p)) := by
  obtain ⟨pending, current, counted⟩ := allowed
  obtain ⟨differ, holdsFrom, -⟩ := kept.pending p pending
  refine ⟨holdsFrom, ?_, fun _ open_ => (by cases open_), ?_, ?_⟩
  · intro q same
    have here : h.pending = some q := same
    rw [pending] at here
    cases here
    exact ⟨differ, holdsFrom, Or.inr rfl⟩
  · intro old v back
    rcases List.mem_append.mp back with earlier | last
    · rcases kept.rolled old v earlier with skipped | ⟨q, same, -, -, atFrom⟩
      · exact Or.inl skipped
      · rw [pending] at same
        cases same
        exact absurd (atFrom.symm.trans current) differ
    · cases List.mem_singleton.mp last
      exact Or.inr ⟨p, pending, rfl, counted, rfl⟩
  · exact pairwise_snoc kept.again (fun _ _ _ => Deed.noConfusion)

theorem kept_passed (kept : Kept h) (v : Version)
    (settled : ∀ p, h.pending = some p → h.current = p.toAgent) : Kept (Op.run h (.passed v)) := by
  refine ⟨kept.holds, fun _ same => (by cases same), fun _ open_ => (by cases open_), ?_, ?_⟩
  · intro old w back
    rcases List.mem_append.mp back with earlier | last
    · rcases kept.rolled old w earlier with skipped | ⟨q, same, -, -, atFrom⟩
      · exact Or.inl skipped
      · exact absurd (atFrom.symm.trans (settled q same)) (kept.pending q same).1
    · cases List.mem_singleton.mp last
  · exact pairwise_snoc kept.again (fun _ _ _ => Deed.noConfusion)

theorem kept_ran (kept : Kept h) {v : Version} {time : Int} (allowed : Allowed h (.ran v time)) :
    Kept (Op.run h (.ran v time)) := by
  refine ⟨kept.holds, kept.pending, ?_, kept.rolled, kept.again⟩
  intro t open_
  have shape : h.trial.map (fun t =>
    if t.toAgent = v then { t with starts := time :: t.starts } else t) = some t := open_
  obtain ⟨before, was, same⟩ := Option.map_eq_some_iff.mp shape
  obtain ⟨p, pending, current, from_, to_, deadline, few, most, times⟩ := kept.trial before was
  obtain ⟨room, atMost, inTime⟩ := allowed p before pending was
  split at same
  · subst same
    refine ⟨p, pending, current, from_, to_, deadline, room, le_trans room atMost, ?_⟩
    intro other mem
    rcases List.mem_cons.mp mem with rfl | earlier
    · exact inTime
    · exact times other earlier
  · subst same
    exact ⟨p, pending, current, from_, to_, deadline, few, most, times⟩

theorem kept_op (kept : Kept h) {op : Op} (allowed : Allowed h op) : Kept (op.run h) := by
  cases op with
  | pending p => exact kept_pending kept allowed
  | removePending => exact kept_removePending kept allowed
  | binary v sha => exact kept_binaries kept allowed.2 (kept.holds.set allowed.1 sha)
  | remove v => exact kept_binaries kept allowed.2 (kept.holds.delete allowed.1)
  | previous v => exact ⟨kept.holds, kept.pending, kept.trial, kept.rolled, kept.again⟩
  | swap kind p => exact kept_swap kept allowed
  | back p => exact kept_back kept allowed
  | skip v =>
      refine ⟨kept.holds, kept.pending, kept.trial, ?_, kept.again⟩
      intro old w back
      rcases kept.rolled old w back with ⟨s, isSkip, below⟩ | waits
      · exact Or.inl ⟨v, rfl, le_trans below (allowed s isSkip)⟩
      · exact Or.inr waits
  | passed v => exact kept_passed kept v allowed.2
  | tested v =>
      unfold Op.run
      dsimp only
      split
      · rename_i found _
        have more : ∀ {w : Version}, Holds h w → Holds { h with tested := (v, found) :: h.tested } w :=
          fun ⟨sha, isThere, passed⟩ => ⟨sha, isThere, List.mem_cons_of_mem _ passed⟩
        refine ⟨more kept.holds, ?_, kept.trial, kept.rolled, kept.again⟩
        intro p same
        obtain ⟨differ, holds, current⟩ := kept.pending p same
        exact ⟨differ, more holds, current⟩
      · exact kept
  | ran v time => exact kept_ran kept allowed

/-- Every operation of a program is allowed where it is done. -/
def Chain : Home → List Op → Prop
  | _, [] => True
  | h, op :: rest => Allowed h op ∧ Chain (op.run h) rest

theorem Chain.append {ops more : List Op} (first : Chain h ops) (second : Chain (h.after ops) more) :
    Chain h (ops ++ more) := by
  induction ops generalizing h with
  | nil => exact second
  | cons op rest ih => exact ⟨first.1, ih first.2 second⟩

/-- Wherever a program breaks off. -/
theorem Chain.kept {ops : List Op} (chain : Chain h ops) (before : Kept h) (done : Nat) :
    Kept (h.after (ops.take done)) := by
  induction ops generalizing h done with
  | nil =>
      rw [List.take_nil]
      exact before
  | cons op rest ih =>
      cases done with
      | zero => exact before
      | succ done => exact ih chain.2 (kept_op before chain.1) done

theorem Chain.keptAll {ops : List Op} (chain : Chain h ops) (before : Kept h) :
    Kept (h.after ops) := by
  have whole := chain.kept before ops.length
  rw [List.take_length] at whole
  exact whole

end Ops

/-! ## Each program -/

/-- What holds between two events. -/
structure Fine (m : Machine) : Prop where
  home : Kept m.home
  agent : ∀ a, m.agent = some a → a.version = m.home.current ∧ a.gate = m.home.pending ∧
    ∀ p, a.gate = some p → p.toAgent = a.version ∧ 0 < p.tries

/-- The program's operations are allowed, and the agent it leaves agrees with what it leaves. -/
def Goes (h : Home) (program : List Op × Option Running) : Prop :=
  Chain h program.1 ∧ ∀ a, program.2 = some a → a.version = (h.after program.1).current ∧
    a.gate = (h.after program.1).pending ∧
    ∀ p, a.gate = some p → p.toAgent = a.version ∧ 0 < p.tries

section Programs

variable {m : Machine}

theorem Fine.stays (fine : Fine m) : Goes m.home ([], m.agent) := ⟨trivial, fine.agent⟩

theorem goes_none {h : Home} {ops : List Op} (chain : Chain h ops) : Goes h (ops, none) :=
  ⟨chain, fun _ same => nomatch same⟩

/-- Where `current` is not at the candidate, a start counts nothing, and `pending` goes. -/
theorem settle_goes {h : Home} (kept : Kept h)
    (other : ∀ p, h.pending = some p → h.current = p.fromAgent) :
    Goes h ((settle h h.current).1, some ⟨h.current, (settle h h.current).2, 0⟩) := by
  unfold settle
  split
  · rename_i none
    refine ⟨trivial, ?_⟩
    intro a same
    cases same
    exact ⟨rfl, none.symm, fun _ same => nomatch same⟩
  · rename_i p pending
    have atFrom := other p pending
    have differ := (kept.pending p pending).1
    rw [if_neg (fun same => differ (atFrom.symm.trans same.symm))]
    split
    · refine ⟨⟨?_, ?_, trivial⟩, ?_⟩
      · intro s isSkip
        rw [isSkip]
        exact le_max_left _ _
      · intro q same
        have here : h.pending = some q := same
        rw [pending] at here
        cases here
        refine ⟨atFrom, Or.inr ⟨_, rfl, ?_⟩⟩
        cases h.skip with
        | none => exact le_refl _
        | some s => exact le_max_right _ _
      · intro a same
        cases same
        exact ⟨rfl, rfl, fun _ same => nomatch same⟩
    · rename_i uncounted
      refine ⟨⟨?_, trivial⟩, ?_⟩
      · intro q same
        rw [pending] at same
        cases same
        refine ⟨atFrom, Or.inl ?_⟩
        by_contra counted
        exact uncounted ⟨atFrom.symm, Nat.pos_of_ne_zero counted⟩
      · intro a same
        cases same
        exact ⟨rfl, rfl, fun _ same => nomatch same⟩

/-- A start of the agent that was not swapped in, or of one that passed. -/
theorem start_settled {h : Home} (kept : Kept h) (now : Int) (refused : Bool)
    (other : ∀ p, h.pending = some p → h.current = p.fromAgent) :
    Goes h (if refused then ([.ran h.current now] ++
        flipBack (h.after [.ran h.current now]) h.current, none)
      else ([.ran h.current now] ++ (settle (h.after [.ran h.current now]) h.current).1,
        some ⟨h.current, (settle (h.after [.ran h.current now]) h.current).2, 0⟩)) := by
  have noTrial := kept.noTrial (fun p same current =>
    (kept.pending p same).1 ((other p same).symm.trans current))
  have ran : Chain h [.ran h.current now] := by
    refine ⟨?_, trivial⟩
    intro p t _ open_
    rw [noTrial] at open_
    cases open_
  split
  · refine goes_none (ran.append ?_)
    unfold flipBack
    split
    · rename_i p pending
      have differ := (kept.pending p pending).1
      rw [if_neg (fun same => differ ((other p pending).symm.trans same.symm))]
      trivial
    · trivial
  · have settled := settle_goes (h := h.after [.ran h.current now]) (ran.keptAll kept) other
    refine ⟨ran.append settled.1, ?_⟩
    intro a same
    have later := settled.2 a same
    show a.version = ((h.after [.ran h.current now]).after _).current ∧ _
    exact later

/-- A start of the candidate. -/
theorem start_candidate {h : Home} (kept : Kept h) {p : Pending} (pending : h.pending = some p)
    (current : h.current = p.toAgent) (now : Int) (refused : Bool)
    (few : p.tries + 1 ≤ maxTries) (inTime : now ≤ p.deadline) {ops : List Op}
    (counting : ops = [.pending { p with tries := p.tries + 1 }, .ran h.current now]) :
    Goes h (if refused then (ops ++ flipBack (h.after ops) h.current, none)
      else (ops ++ (settle (h.after ops) h.current).1,
        some ⟨h.current, (settle (h.after ops) h.current).2, 0⟩)) := by
  subst counting
  have counted : Chain h [.pending { p with tries := p.tries + 1 }, .ran h.current now] := by
    refine ⟨Or.inl ⟨p, pending, rfl, current⟩, ?_, trivial⟩
    intro q t same open_
    cases same
    obtain ⟨q, same, -, -, -, -, starts, -, -⟩ := kept.trial t open_
    rw [pending] at same
    cases same
    exact ⟨Nat.lt_succ_of_le starts, few, inTime⟩
  split
  · refine goes_none (counted.append ?_)
    unfold flipBack
    show Chain _ (if p.toAgent = h.current then [.back { p with tries := p.tries + 1 }] else [])
    rw [if_pos current.symm]
    exact ⟨⟨rfl, current, Nat.succ_pos _⟩, trivial⟩
  · have settles : settle (h.after [.pending { p with tries := p.tries + 1 }, .ran h.current now]) h.current =
        ([], some { p with tries := p.tries + 1 }) := by
      unfold settle
      show (if p.toAgent = h.current then _ else _) = _
      rw [if_pos current.symm]
    rw [settles]
    refine ⟨by rw [List.append_nil]; exact counted, ?_⟩
    intro a same
    cases same
    refine ⟨rfl, rfl, ?_⟩
    intro q same
    cases same
    exact ⟨current.symm, Nat.succ_pos _⟩

theorem start_goes (fine : Fine m) (now : Int) (refused : Bool) :
    Goes m.home (start m now refused) := by
  unfold start
  split
  · rename_i a runs
    rw [← runs]
    exact fine.stays
  · unfold countStart
    cases pending : m.home.pending with
    | none => exact start_settled fine.home now refused (fun p same => by rw [pending] at same; cases same)
    | some p =>
        dsimp only
        by_cases candidate : p.toAgent = m.home.current
        · rw [if_neg (not_not.mpr candidate)]
          by_cases goes : p.tries + 1 ≤ maxTries ∧ now ≤ p.deadline
          · rw [if_pos goes]
            exact start_candidate fine.home pending candidate.symm now refused goes.1 goes.2 rfl
          · rw [if_neg goes]
            exact goes_none ⟨Or.inl ⟨p, pending, rfl, candidate.symm⟩,
              ⟨rfl, candidate.symm, Nat.succ_pos _⟩, trivial⟩
        · rw [if_pos candidate]
          refine start_settled fine.home now refused ?_
          intro q same
          rw [pending] at same
          cases same
          exact ((fine.home.pending p pending).2.2).resolve_left (fun same => candidate same.symm)

theorem pruned_spares {keep all : List Version} {v : Version} (mem : v ∈ pruned keep all) :
    v ∉ keep := by
  induction all generalizing keep with
  | nil => cases mem
  | cons w rest ih =>
      unfold pruned at mem
      split at mem
      · exact ih mem
      · split at mem
        · exact fun inKeep => ih mem (List.mem_append_left _ inKeep)
        · rcases List.mem_cons.mp mem with rfl | later
          · assumption
          · exact ih later

theorem removes_chain {h : Home} (none : h.pending = none) {versions : List Version}
    (spares : ∀ v ∈ versions, h.current ≠ v) :
    Chain h (versions.map .remove) ∧ (h.after (versions.map .remove)).current = h.current ∧
      (h.after (versions.map .remove)).pending = Option.none := by
  induction versions generalizing h with
  | nil => exact ⟨trivial, rfl, none⟩
  | cons v rest ih =>
      have later := @ih (Op.run h (.remove v)) none
        (fun w mem => spares w (List.mem_cons_of_mem _ mem))
      exact ⟨⟨⟨spares v List.mem_cons_self, none⟩, later.1⟩, later.2⟩

theorem gateStep_goes (fine : Fine m) (now : Int) (healthy : Bool) :
    Goes m.home (gateStep m now healthy) := by
  unfold gateStep
  split
  · rename_i me p next runs
    obtain ⟨version, gate, known⟩ := fine.agent _ runs
    obtain ⟨candidate, counted⟩ := known p rfl
    have pending : m.home.pending = some p := gate.symm
    have current : m.home.current = p.toAgent := version.symm.trans candidate.symm
    split
    · exact goes_none ⟨⟨pending, current, counted⟩, trivial⟩
    split
    · exact fine.stays
    split
    · have passes : Allowed m.home (.passed me) := by
        refine ⟨version.symm, ?_⟩
        intro q same
        rw [pending] at same
        cases same
        exact current
      obtain ⟨removes, atCurrent, gone⟩ := @removes_chain (Op.run m.home (.passed me)) rfl
        (pruned (me :: m.home.previous.toList)
          ((m.home.binaries.map Prod.fst).mergeSort fun a b => decide (b ≤ a))) (by
        intro v mem same
        refine pruned_spares mem (List.mem_cons.mpr (Or.inl ?_))
        exact same.symm.trans version.symm)
      refine ⟨⟨passes, removes⟩, ?_⟩
      intro a same
      cases same
      exact ⟨version.trans atCurrent.symm, gone.symm, fun _ same => nomatch same⟩
    · refine ⟨trivial, ?_⟩
      intro a same
      cases same
      exact ⟨version, gate, known⟩
  · rename_i agent _
    exact fine.stays

theorem asks_other {h : Home} {me : Version} {kind : Kind} {offer : Offer}
    (asked : asks h me kind offer = true) : me ≠ offer.version := by
  cases kind with
  | upgrade =>
      simp only [asks, Bool.and_eq_true, decide_eq_true_eq] at asked
      exact ne_of_lt asked.1
  | agentTo => exact (ne_of_lt (of_decide_eq_true asked)).symm

theorem asks_above {h : Home} {me : Version} {kind : Kind} {offer : Offer}
    (asked : asks h me kind offer = true) (isUpgrade : kind = .upgrade) (s : Version)
    (isSkip : h.skip = some s) : s < offer.version := by
  subst isUpgrade
  simp only [asks, Bool.and_eq_true, decide_eq_true_eq, isSkip, Option.all_some] at asked
  exact asked.2

/-- The binary is there with its hash, or is written. -/
theorem fetch_chain {h : Home} {offer : Offer} {sha : String} {fetched : List Op}
    (other : h.current ≠ offer.version) (none : h.pending = Option.none)
    (fetches : fetch h offer sha = some fetched) :
    Chain h fetched ∧ (h.after fetched).current = h.current ∧
      (h.after fetched).pending = Option.none ∧ (h.after fetched).skip = h.skip ∧
      (h.after fetched).binaries.get offer.version = some sha := by
  unfold fetch at fetches
  split at fetches
  · rename_i isThere
    cases fetches
    exact ⟨trivial, rfl, none, rfl, isThere⟩
  split at fetches
  · cases fetches
    refine ⟨⟨⟨other, none⟩, trivial⟩, rfl, none, rfl, ?_⟩
    show OrderedMap.get offer.version (h.binaries.set offer.version sha) = some sha
    rw [OrderedMap.get_set, if_pos rfl]
  · cases fetches

/-- The test, `pending`, `previous` and `current`, once the binary is there. -/
theorem swap_chain {h : Home} {kind : Kind} {p : Pending} {sha : String}
    (isThere : h.binaries.get p.toAgent = some sha) (none : h.pending = Option.none)
    (current : h.current = p.fromAgent) (differ : p.fromAgent ≠ p.toAgent) (zero : p.tries = 0)
    (above : kind = .upgrade → ∀ s, h.skip = some s → s < p.toAgent) :
    Chain h [.tested p.toAgent, .pending p, .previous p.fromAgent, .swap kind p] := by
  have tests : Op.run h (.tested p.toAgent) =
      { h with tested := (p.toAgent, sha) :: h.tested } := by
    unfold Op.run
    dsimp only
    rw [isThere]
  refine ⟨trivial, ?_⟩
  rw [tests]
  exact ⟨Or.inr ⟨none, current.symm, differ⟩, trivial,
    ⟨rfl, current, zero, ⟨sha, isThere, List.mem_cons_self⟩, above⟩, trivial⟩

theorem moveAgent_goes (fine : Fine m) (kind : Kind) (offer : Offer) (now : Int) :
    Goes m.home (moveAgent m kind offer now) := by
  unfold moveAgent
  split
  · rename_i me next runs
    obtain ⟨version, gate, -⟩ := fine.agent _ runs
    have none : m.home.pending = Option.none := gate.symm
    have current : m.home.current = me := version.symm
    split
    · rename_i asked
      have other := asks_other asked
      unfold downloadTestSwap
      split
      · exact fine.stays
      split
      · exact fine.stays
      split
      · exact fine.stays
      rename_i fetches
      obtain ⟨chain, atMe, noPending, sameSkip, isThere⟩ :=
        fetch_chain (by rw [current]; exact other) none fetches
      split
      · refine goes_none (chain.append (swap_chain (p := ⟨me, offer.version, 0, now + deadlineS⟩)
          isThere noPending (atMe.trans current) other rfl ?_))
        rw [sameSkip]
        exact asks_above asked
      · refine ⟨chain, ?_⟩
        intro a same
        have isMe : a = ⟨me, Option.none, next⟩ := Option.some.inj (same.symm.trans runs)
        subst isMe
        exact ⟨(atMe.trans current).symm, noPending.symm, fun _ same => by cases same⟩
    · exact fine.stays
  · exact fine.stays

theorem program_goes (fine : Fine m) (act : Act) : Goes m.home (program m act) := by
  cases act with
  | start now refused => exact start_goes fine now refused
  | gate now healthy => exact gateStep_goes fine now healthy
  | move kind offer now => exact moveAgent_goes fine kind offer now

theorem fine_next (fine : Fine m) (e : Event) : Fine (m.next e) := by
  obtain ⟨chain, agrees⟩ := program_goes fine e.act
  unfold Machine.next
  split
  · exact ⟨chain.keptAll fine.home, agrees⟩
  · exact ⟨chain.kept fine.home _, fun _ same => nomatch same⟩

theorem fine_run (fine : Fine m) (events : List Event) : Fine (m.run events) := by
  induction events generalizing m with
  | nil => exact fine
  | cons e rest ih => exact ih (fine_next fine e)

theorem fine_installed (v : Version) (sha : String) (skip : Option Version) :
    Fine (Machine.installed v sha skip) := by
  refine ⟨⟨⟨sha, ?_, List.mem_singleton_self _⟩, fun _ same => (by cases same),
    fun _ same => (by cases same), fun _ _ mem => (by cases mem), List.Pairwise.nil⟩,
    fun _ same => (by cases same)⟩
  show (if v = v then some sha else Option.none) = some sha
  rw [if_pos rfl]

end Programs

/-! ## A self-update ends -/

/-- The same candidate of the same swap. -/
def SameTrial (t u : Trial) : Prop :=
  u.fromAgent = t.fromAgent ∧ u.toAgent = t.toAgent ∧ u.deadline = t.deadline

/-- The trial goes on, or it closed: the candidate passed, or `current` points back. -/
def GoesOn (t : Trial) (h h' : Home) : Prop :=
  ∃ new, h'.deeds = h.deeds ++ new ∧ ((∃ u, h'.trial = some u ∧ SameTrial t u) ∨
    .passed t.toAgent ∈ new ∨ .back t.fromAgent t.toAgent ∈ new)

section Ends

variable {h : Home} {m : Machine}

theorem goesOn_same {t : Trial} {h' : Home} (open_ : h.trial = some t) (trial : h'.trial = h.trial)
    (deeds : h'.deeds = h.deeds) : GoesOn t h h' :=
  ⟨[], by rw [deeds, List.append_nil], Or.inl ⟨t, trial.trans open_, rfl, rfl, rfl⟩⟩

theorem op_goesOn (kept : Kept h) {op : Op} (allowed : Allowed h op) {t : Trial}
    (open_ : h.trial = some t) : GoesOn t h (op.run h) := by
  obtain ⟨p, pending, current, from_, to_, -⟩ := kept.trial t open_
  cases op with
  | pending _ => exact goesOn_same open_ rfl rfl
  | removePending => exact goesOn_same open_ rfl rfl
  | binary _ _ => exact goesOn_same open_ rfl rfl
  | remove _ => exact goesOn_same open_ rfl rfl
  | previous _ => exact goesOn_same open_ rfl rfl
  | skip _ => exact goesOn_same open_ rfl rfl
  | tested v =>
      unfold Op.run
      dsimp only
      split
      · exact goesOn_same open_ rfl rfl
      · exact goesOn_same open_ rfl rfl
  | swap kind q =>
      obtain ⟨same, atFrom, -⟩ := allowed
      rw [pending] at same
      cases same
      exact absurd (atFrom.symm.trans current) (kept.pending p pending).1
  | back q =>
      obtain ⟨same, -, -⟩ := allowed
      rw [pending] at same
      cases same
      refine ⟨[.back p.fromAgent p.toAgent], rfl, Or.inr (Or.inr ?_)⟩
      rw [from_, to_]
      exact List.mem_singleton_self _
  | passed v =>
      refine ⟨[.passed v], rfl, Or.inr (Or.inl ?_)⟩
      rw [to_, ← current, allowed.1]
      exact List.mem_singleton_self _
  | ran v time =>
      refine ⟨[], (List.append_nil _).symm, Or.inl ?_⟩
      show ∃ u, h.trial.map _ = some u ∧ SameTrial t u
      rw [open_]
      refine ⟨_, rfl, ?_⟩
      dsimp only
      split
      · exact ⟨rfl, rfl, rfl⟩
      · exact ⟨rfl, rfl, rfl⟩

theorem after_deeds (ops : List Op) : ∃ new, (h.after ops).deeds = h.deeds ++ new := by
  induction ops generalizing h with
  | nil => exact ⟨[], (List.append_nil _).symm⟩
  | cons op rest ih =>
      obtain ⟨later, grows⟩ := @ih (op.run h)
      have first : ∃ new, (op.run h).deeds = h.deeds ++ new := by
        cases op with
        | swap kind p => exact ⟨_, rfl⟩
        | back p => exact ⟨_, rfl⟩
        | passed v => exact ⟨_, rfl⟩
        | tested v =>
            refine ⟨[], ?_⟩
            unfold Op.run
            dsimp only
            split
            · exact (List.append_nil _).symm
            · exact (List.append_nil _).symm
        | _ => exact ⟨[], (List.append_nil _).symm⟩
      obtain ⟨new, grew⟩ := first
      refine ⟨new ++ later, ?_⟩
      show ((op.run h).after rest).deeds = _
      rw [grows, grew, List.append_assoc]

theorem chain_goesOn {ops : List Op} (chain : Chain h ops) (kept : Kept h) {t : Trial}
    (open_ : h.trial = some t) (done : Nat) : GoesOn t h (h.after (ops.take done)) := by
  induction ops generalizing h done t with
  | nil =>
      rw [List.take_nil]
      exact goesOn_same open_ rfl rfl
  | cons op rest ih =>
      cases done with
      | zero => exact goesOn_same open_ rfl rfl
      | succ done =>
          have first := op_goesOn kept chain.1 open_
          obtain ⟨new, grew, ⟨u, stays, same⟩ | closed⟩ := first
          · obtain ⟨later, grows, outcome⟩ := ih chain.2 (kept_op kept chain.1) stays done
            refine ⟨new ++ later, ?_, ?_⟩
            · show ((op.run h).after (rest.take done)).deeds = _
              rw [grows, grew, List.append_assoc]
            · rw [same.1, same.2.1] at outcome
              rcases outcome with ⟨v, stays', same'⟩ | passed | back
              · exact Or.inl ⟨v, stays', same'.1.trans same.1, same'.2.1.trans same.2.1,
                  same'.2.2.trans same.2.2⟩
              · exact Or.inr (Or.inl (List.mem_append_right _ passed))
              · exact Or.inr (Or.inr (List.mem_append_right _ back))
          · obtain ⟨later, grows⟩ := @after_deeds (op.run h) (rest.take done)
            refine ⟨new ++ later, ?_, Or.inr ?_⟩
            · show ((op.run h).after (rest.take done)).deeds = _
              rw [grows, grew, List.append_assoc]
            · exact closed.imp (List.mem_append_left _) (List.mem_append_left _)

theorem next_goesOn (fine : Fine m) (e : Event) {t : Trial} (open_ : m.home.trial = some t) :
    GoesOn t m.home (m.next e).home := by
  obtain ⟨chain, -⟩ := program_goes fine e.act
  unfold Machine.next
  split
  · have whole := chain_goesOn chain fine.home open_ (program m e.act).1.length
    rw [List.take_length] at whole
    exact whole
  · exact chain_goesOn chain fine.home open_ _

/-- The start after the last one that may run, or past the deadline, only points `current` back. -/
theorem start_back (fine : Fine m) {t : Trial} (open_ : m.home.trial = some t)
    (stopped : m.agent = none) {now : Int} (isOver : t.starts.length = maxTries ∨ t.deadline < now)
    (refused : Bool) : (m.next ⟨.start now refused, none⟩).home.current = t.fromAgent := by
  obtain ⟨p, pending, current, from_, -, deadline, few, -⟩ := fine.home.trial t open_
  have counts : countStart m.home m.home.current now =
      ([.pending { p with tries := p.tries + 1 }, .back { p with tries := p.tries + 1 }], false) := by
    unfold countStart
    rw [pending]
    dsimp only
    rw [if_neg (not_not.mpr current.symm), if_neg]
    rintro ⟨room, inTime⟩
    rcases isOver with used | late
    · omega
    · rw [deadline] at late
      omega
  have starts : program m (.start now refused) = ([.pending { p with tries := p.tries + 1 },
      .back { p with tries := p.tries + 1 }], none) := by
    unfold program start
    dsimp only
    rw [stopped]
    dsimp only
    rw [counts]
  unfold Machine.next
  dsimp only
  rw [starts]
  exact from_.symm

end Ends

/-- What a self-update comes to, in a state of the host. -/
structure UpdateEnds (m : Machine) : Prop where
  /-- `current` names a directory that holds a tested agent. -/
  current : Holds m.home m.home.current
  /-- A candidate that did not pass its gate is let run twice at most, and in time. -/
  tries : ∀ t, m.home.trial = some t → m.home.current = t.toAgent ∧
    t.starts.length ≤ maxTries ∧ ∀ time ∈ t.starts, time ≤ t.deadline
  /-- Its trial goes on until it passes or `current` points at the agent it replaced. -/
  closes : ∀ t e, m.home.trial = some t → GoesOn t m.home (m.next e).home
  /-- Any further start points `current` back. -/
  back : ∀ t now refused, m.home.trial = some t → m.agent = none →
    t.starts.length = maxTries ∨ t.deadline < now →
      (m.next ⟨.start now refused, none⟩).home.current = t.fromAgent
  /-- A version that was rolled back is never swapped in again by an upgrade. -/
  again : m.home.deeds.Pairwise fun d e => ∀ old v, d = .back old v → e ≠ .swapped .upgrade v

theorem self_update_ends (v : Version) (sha : String) (skip : Option Version)
    (events : List Event) : UpdateEnds ((Machine.installed v sha skip).run events) := by
  have fine := fine_run (fine_installed v sha skip) events
  refine ⟨fine.home.holds, ?_, fun _ e open_ => next_goesOn fine e open_,
    fun _ _ refused open_ stopped isOver => start_back fine open_ stopped isOver refused,
    fine.home.again⟩
  intro t open_
  obtain ⟨p, -, current, -, to_, deadline, -, most, times⟩ := fine.home.trial t open_
  refine ⟨current.trans to_.symm, most, ?_⟩
  rw [deadline]
  exact times

/-- An offer of the agent 2.0.0 that downloads and answers its self-test. -/
def offered : Offer := ⟨vX 2 0 0, some "b", true, some "b", true⟩

-- The candidate dies in each start; its third start points back, and its version is skipped.
example : ((Machine.installed (vX 1 0 0) "a" none).run
    [⟨.start 0 false, none⟩, ⟨.move .upgrade offered 5, none⟩, ⟨.start 10 false, some 2⟩,
      ⟨.start 20 false, none⟩, ⟨.gate 25 false, some 0⟩, ⟨.start 30 false, none⟩,
      ⟨.start 35 false, none⟩, ⟨.move .upgrade offered 40, none⟩]).home.deeds =
    [.swapped .upgrade (vX 2 0 0), .back (vX 1 0 0) (vX 2 0 0)] := by
  decide

end OmarchyPool.Agent.SelfUpdate
