/-
# OmarchyPool.Agent.Loop -- ticks, failures and restarts

A tick asks the pool when a poll is due, takes the orders and follows the target, looks for
drift when nothing is in flight, takes one step of the round, and then saves the state.  A run
is a list of events: a tick that ends with the state saved, a tick whose step or whose save
failed on the disk, a process that dies somewhere in a tick, a restart between two ticks.
-/
import OmarchyPool.Agent.Follow

namespace OmarchyPool.Agent

open OmarchyPool.Lib

set_option autoImplicit false

def driftS : Int := 900

/-- A commit or a revert is finishing: a round cannot start now. -/
def busy (state : State) : Bool :=
  decide (state.rollout.step ≠ .idle) && !preemptible state.rollout.step

/-! ## The poll -/

/-- The round the orders ask for, or the one `force` says why; then their answers. -/
def afterOrders (cfg : Config) (w : World) (p : Process) (rounds : List OrderId)
    (target : Option Release) (force : Option String) : Process :=
  let force := force.or (rounds.head?.map fun id => "host order " ++ id)
  rounds.foldl answer (followTarget cfg w p target force)

/-- The Updates, the settings, the host orders, then the target. -/
def onState (cfg : Config) (w : World) (p : Process) (s : HostState) : Process :=
  let asked := if w.roundNow then some "a round was asked for" else none
  let waits := busy p.state
  let (p, update) := takeUpdate w waits s.updates p
  let p := restoreSettings w p s.settings
  let (p, rounds) := takeOrders w waits { p with queue := s.orders }
  afterOrders cfg w p rounds s.target (update.or asked)

def poll (cfg : Config) (w : World) (p : Process) : Process :=
  match w.answer with
  | .ok s => onState cfg w p s
  | .noAnswer => say p w.now .poolUnreachable
  | .unauthorized => say p w.now .unauthorized

/-- The poll when one is due, or the next of the orders the brake paced. -/
def attend (cfg : Config) (w : World) (p : Process) : Process :=
  if w.roundNow || w.due then poll cfg w p
  else if p.queue = [] then p
  else
    let (p, rounds) := takeOrders w (busy p.state) p
    if rounds = [] then p else afterOrders cfg w p rounds p.state.target none

/-! ## Drift -/

/-- Whether an overlay carries the hash of the inputs: a label on every service. -/
def overlayHolds (inputs : String) : Content → Bool
  | .overlay services _ rendered => services ≠ [] && rendered = inputs
  | .text _ | .pins _ => false

/-- A service of `last-good/` is missing, stopped or differently configured. -/
def drifted (cfg : Config) (w : World) (p : Process) : Bool :=
  match project cfg p.disk .lastGood, w.engine with
  | .ok (_, services), some engine =>
      match engine.observe with
      | .yes units => services.any fun s =>
          match engine.configHash s with
          | .yes hash => !units.any fun u =>
              u.service = s && (u.running || u.restarting) && u.configHash = hash
          | .notFound | .noAnswer _ => false
      | .notFound | .noAnswer _ => false
  | _, _ => false

/-- When idle: a changed input starts a round of the release that runs at once, and the running set
is compared with `last-good/` every fifteen minutes. -/
def drift (cfg : Config) (w : World) (p : Process) : Process :=
  match p.state.applied, fileIn p.disk.lastGood overlayPath with
  | some applied, some overlay =>
      if !overlayHolds w.inputs overlay && decide (p.lastInputs ≠ some w.inputs) then
        beginRound { p with lastInputs := some w.inputs } w.now applied false false 0
          "an input changed"
      else if w.now - p.lastDrift < driftS then p
      else
        let p := { p with lastDrift := w.now }
        if drifted cfg w p then
          beginRound p w.now applied false false 0 "the dispatcher does not run as last-good says"
        else p
  | _, _ => p

/-! ## One tick -/

/-- After a restart at `render`, the bundle comes back from the cache. -/
def reloadPending (w : World) (p : Process) : Process :=
  match p.state.rollout.step, p.state.rollout.target with
  | .render, some t =>
      if p.pending.any (fun pending => pending.release = t) || p.state.applied = some t then p
      else
        match cachedArchive w t with
        | some (.current b) =>
            match b.files with
            | some files => { p with pending := some ⟨b.manifest.release, files⟩ }
            | none => { p with pending := none }
        | some (.needsNewerAgent _ _ _) | none => p
  | _, _ => p

/-- The process when its round takes a step: the pool asked, the orders taken, drift looked for. -/
def acting (cfg : Config) (w : World) (p : Process) : Process :=
  if p.exit then p
  else
    let p := attend cfg w p
    if p.exit then p
    else reloadPending w (if p.state.rollout.step = .idle then drift cfg w p else p)

/-- The round's step of this tick. -/
def workOf (cfg : Config) (w : World) (p : Process) : Work :=
  if p.exit then .stay p.state else step cfg w.toHost p.disk p.pending p.state

/-- The tick's step done: its operations, its state, its deeds. -/
def performed (p : Process) (work : Work) : Process :=
  { p with
    state := work.state
    disk := p.disk.after work.ops
    pending := if work.state.rollout.step = .idle then none else p.pending
    deeds := p.deeds ++ work.deeds }

/-- What the loop still does after the round's step. -/
def closing (w : World) (p : Process) : Process := if p.exit then p else retireStep w p

/-- A tick, but for the save at its end. -/
def ticked (cfg : Config) (w : World) (p : Process) : Process :=
  let p := acting cfg w p
  closing w (performed p (workOf cfg w p))

/-- A tick whose step failed after `done` of its operations: the state is as it was. -/
def failedAfter (cfg : Config) (w : World) (done : Nat) (p : Process) : Process :=
  let p := acting cfg w p
  closing w { p with disk := p.disk.after ((workOf cfg w p).ops.take done) }

/-- At start, a step bounded by the clock is timed again from now, and a guard begins again at its
ready wait. -/
def resume (state : State) (now : Int) : State :=
  match state.rollout.step with
  | .replace files (.create _) =>
      { state with rollout := { state.rollout with step := .replace files (.create now) } }
  | .replace files (.ready _) =>
      { state with rollout := { state.rollout with step := .replace files (.ready now) } }
  | .guard _ =>
      { state with rollout := { state.rollout with step := .replace .staging (.ready now) } }
  | _ => state

/-- A new process on what the disk holds. -/
def restarted (now : Int) (p : Process) : Process where
  state := resume p.saved now
  saved := p.saved
  disk := p.disk
  pending := none
  queue := []
  exit := false
  lastDrift := 0
  lastInputs := none
  deeds := p.deeds

/-! ## Runs -/

inductive Event where
  | tick (w : World)
  /-- A file operation of the step fails after `done` of them, or all went through and the save
  does not. -/
  | unsaved (w : World) (done : Nat)
  /-- The process dies after `done` file operations of the step, before the save, and starts
  again at `time`. -/
  | dies (w : World) (done : Nat) (time : Int)
  | restart (time : Int)

/-- Whether all the operations of the tick's step are among its first `done`. -/
def reaches (cfg : Config) (w : World) (done : Nat) (p : Process) : Bool :=
  decide ((workOf cfg w (acting cfg w p)).ops.length ≤ done)

/-- A tick of which only the first `done` operations are known to be through. -/
def brokenOff (cfg : Config) (w : World) (done : Nat) (p : Process) : Process :=
  if reaches cfg w done p then ticked cfg w p else failedAfter cfg w done p

def Process.next (cfg : Config) (p : Process) : Event → Process
  | .tick w => { ticked cfg w p with saved := (ticked cfg w p).state }
  | .unsaved w done => brokenOff cfg w done p
  | .dies w done time => restarted time (brokenOff cfg w done p)
  | .restart time => restarted time p

def Process.run (cfg : Config) (p : Process) (events : List Event) : Process :=
  events.foldl (Process.next cfg) p

/-! ## A host with one service

Its engine runs the service as asked, GitHub serves every release, and the pool is silent unless
a run says otherwise. -/

def oneService : Config where
  pool := "pool"
  version := vX 1 0 0
  policy := ⟨0⟩
  soakMinutes := 0
  parseSetToml := fun _ => .ok ⟨0, []⟩
  serviceNames := fun _ => some ["dispatcher"]

def dispatcher : Container := ⟨"c1", "dispatcher", .running, 0, "hash"⟩

def calmEngine : Engine where
  configHash := fun _ => .yes "hash"
  observe := .yes [dispatcher]
  startPull := .yes ()
  pollPull := .yes .done
  beginDrain := fun _ => .yes ()
  drained := fun _ => .yes true
  remove := fun _ _ => .yes ()
  create := .yes ()
  ready := fun _ _ => .yes true
  inspect := fun _ => .yes dispatcher
  exitsSince := fun _ _ => .yes []

def bundleOf (release : Release) : Bundle where
  manifest := ⟨release, vX 1 0 0, [], ["pool"], some 0, vX 1 0 0, false⟩
  files := some ⟨[(composePath, .text "services"), (setTomlPath, .text "guard")],
    by unfold OrderedMap.Valid; decide⟩

def calmWorld (now : Int) : World where
  now := now
  engine := some calmEngine
  inputs := "inputs"
  tokenKept := true
  violations := fun _ => .ok []
  missing := []
  removes := true
  roundNow := false
  due := false
  answer := .noAnswer
  kept := fun _ => none
  asset := fun release => .ok (.ok (.current (bundleOf release)))
  cosignatures := fun _ => ⟨⟨[]⟩, false⟩
  relay := fun _ => .ok none
  tools := true
  swaps := false
  checkUnits := fun _ => true
  checkEmulate := fun lanes => some lanes
  apply := fun _ => .ok none
  token := false
  marks := false
  retired := false
  widens := none

/-- The pool names `release`, and nothing else. -/
def naming (now : Int) (release : Release) : World :=
  { calmWorld now with
    due := true
    answer := .ok ⟨some release, [], [], none, Nat.zero_le _, Nat.zero_le _⟩ }

/-- The first release a host applies: named, rendered, linted, planned and committed. -/
def firstRound (release : Release) : List Event :=
  [.tick (naming 0 release), .tick (calmWorld 5), .tick (calmWorld 10), .tick (calmWorld 15)]

end OmarchyPool.Agent
