/-
# OmarchyPool.Agent.Rollout -- one round, one small step a tick

`idle → render → lint → plan → pull → replace → guard → commit | revert`.  A step reads the
two rendered directories and what the engine answers, and says three things (`Work`): the file
operations it performs, in order; the state once all of them succeeded; and its deeds.  A step
one of whose operations fails returns an error and leaves the state as it was, so that the
loop runs it again.

A deed is written down where the agent does something a later theorem speaks of.  The list of
deeds is a history variable: no branch of any definition reads it.
-/
import OmarchyPool.Agent.Trust
import OmarchyPool.Agent.Brake

namespace OmarchyPool.Agent

open OmarchyPool.Lib

set_option autoImplicit false

def graceS : Int := 60
def graceMarginS : Int := 30
def sampleS : Int := 5
def quarantineS : Int := 3600

/-! ## The directories -/

/-- A file as far as the agent reads it: one of the bundle's, or one of the two it writes. -/
inductive Content where
  | text (text : String)
  | pins (release : Release)
  | overlay (services : List String) (release : Release) (inputs : String)
  deriving DecidableEq

abbrev Dir := OrderedMap String Content

structure Disk where
  staging : Option Dir
  lastGood : Option Dir
  setDir : Dir
  deriving DecidableEq

def Disk.dir (disk : Disk) : Files → Option Dir
  | .staging => disk.staging
  | .lastGood => disk.lastGood

def Disk.setDirOf (disk : Disk) (files : Files) (dir : Option Dir) : Disk :=
  match files with
  | .staging => { disk with staging := dir }
  | .lastGood => { disk with lastGood := dir }

inductive Op where
  /-- Remove the directory with all it holds, and make it again. -/
  | reset (files : Files)
  | write (files : Files) (path : String) (content : Content)
  | writeSet (path : String) (content : Content)
  /-- `staging/` becomes `last-good/`, which is empty. -/
  | rename
  | removeStaging
  deriving DecidableEq

def Op.run (disk : Disk) : Op → Disk
  | .reset files => disk.setDirOf files (some [])
  | .write files path content =>
      disk.setDirOf files (some (((disk.dir files).getD []).set path content))
  | .writeSet path content => { disk with setDir := disk.setDir.set path content }
  | .rename => { disk with lastGood := disk.staging, staging := none }
  | .removeStaging => { disk with staging := none }

def Disk.after (disk : Disk) (ops : List Op) : Disk := ops.foldl Op.run disk

def pinsPath : String := "pins.json"
def overlayPath : String := "agent.yml"
def composePath : String := "compose.yml"
def setTomlPath : String := "set.toml"

def fileIn (dir : Option Dir) (path : String) : Option Content := dir.bind (OrderedMap.get path)

def readText (dir : Option Dir) (path : String) : Except String String :=
  match fileIn dir path with
  | some (.text text) => .ok text
  | _ => .error path

/-- The release a rendered directory's `pins.json` names. -/
def pinsRelease (dir : Option Dir) : Option Release :=
  match fileIn dir pinsPath with
  | some (.pins release) => some release
  | _ => none

structure Ready where
  http : String
  waitS : Nat
  deriving DecidableEq

/-- A set's `set.toml`, as far as a round reads it. -/
structure SetToml where
  guardS : Nat
  ready : OrderedMap String Ready
  deriving DecidableEq

/-- What is fixed while the agent runs: agent.toml, the pinned policy, and the parsers. -/
structure Config where
  pool : String
  version : Version
  policy : Policy
  soakMinutes : Nat
  parseSetToml : String → Except String SetToml
  serviceNames : String → Option (List String)

/-- The set's files out of a verified bundle, each path once. -/
structure SetFiles where
  entries : Dir
  valid : OrderedMap.Valid entries

/-- A release to roll out. -/
structure Target where
  release : Release
  files : SetFiles

def readSet (cfg : Config) (dir : Option Dir) : Except String (SetToml × List String) := do
  let set ← cfg.parseSetToml (← readText dir setTomlPath)
  match cfg.serviceNames (← readText dir composePath) with
  | some services => .ok (set, services)
  | none => .error "compose.yml has no services"

/-- The compose project of one of the two directories. -/
def project (cfg : Config) (disk : Disk) (files : Files) :
    Except String (SetToml × List String) := readSet cfg (disk.dir files)

def readyWait (set : SetToml) : Int :=
  if set.ready = [] then 120 else (set.ready.map fun entry => entry.2.waitS).foldl max 0

/-! ## The engine -/

inductive Answer (α : Type) where
  | yes (value : α)
  | notFound
  | noAnswer (why : String)

inductive Status where
  | running
  | restarting
  | exited
  | dead
  | created
  | other (word : String)
  deriving DecidableEq

/-- One container of the set. -/
structure Container where
  id : String
  service : String
  status : Status
  restarts : Nat
  configHash : String
  deriving DecidableEq

def Container.running (u : Container) : Bool := u.status = .running
def Container.restarting (u : Container) : Bool := u.status = .restarting
def Container.stopped (u : Container) : Bool :=
  u.status = .exited || u.status = .dead || u.status = .created

structure Exit where
  time : Int
  code : Int
  deriving DecidableEq

inductive PullState where
  | running
  | done
  | failed (why : String)

/-- What the engine answers during one tick. -/
structure Engine where
  configHash : String → Answer String
  observe : Answer (List Container)
  startPull : Answer Unit
  pollPull : Answer PullState
  beginDrain : String → Answer Unit
  drained : String → Answer Bool
  remove : String → Bool → Answer Unit
  create : Answer Unit
  ready : String → String → Answer Bool
  inspect : String → Answer Container
  exitsSince : String → Int → Answer (List Exit)

/-- What the host answers during one tick: the clock, the engine behind the pinned tools, and
what the set directory's own files come to. -/
structure Host where
  now : Int
  engine : Option Engine
  /-- The hash of the inputs referenced in place. -/
  inputs : String
  /-- The dispatcher's token could be put where the releases here read it. -/
  tokenKept : Bool
  /-- The lint of a staged set with the owner's override. -/
  violations : Dir → Except String (List String)
  /-- The inputs the dispatcher may not start without that are missing. -/
  missing : List String
  /-- The removal of `staging/` after a revert went through. -/
  removes : Bool

/-! ## Deeds and work -/

inductive Deed where
  /-- A rollback statement was accepted in this state, with so many co-signatures over it. -/
  | accepted (before : State) (st : Statement) (found : Nat)
  /-- A round started: the state with it, and the co-signatures found over its bundle. -/
  | started (state : State) (found : Nat)
  /-- A release change was counted. -/
  | changed (target : Release) (time : Int)
  /-- A restart of the dispatcher was counted. -/
  | restarted (time : Int)
  /-- An order the brake let through was carried out. -/
  | carried (order : Order) (time : Int)
  | guardBegan (target : Option Release) (container : String) (time : Int)
  | sampled (container : String) (time : Int) (passed : Bool)
  /-- A guarded container ran and was ready at a sample past the guard's length. -/
  | watched (target : Option Release) (container : String) (began guardS time : Int)
  | committed (target : Release) (services : List String)

structure Work where
  ops : List Op
  state : State
  deeds : List Deed

def Work.stay (state : State) : Work := ⟨[], state, []⟩

/-- Records a round's end and goes back to idle. -/
def finish (state : State) (now : Int) (outcome : Outcome) (fromRelease : Option Release) : State :=
  { state with round := some ⟨now, outcome, fromRelease⟩, rollout := .ended now }

def go (state : State) (now : Int) (step : Step) : State :=
  { state with rollout := { state.rollout with step := step, since := now } }

/-- Changes nothing but what is said, once a minute at most. -/
def engineWait (state : State) (now : Int) : State :=
  match state.round with
  | some round =>
      if now - round.time ≥ 60 ∨ round.outcome ≠ .engineUnreachable then
        { state with round := some ⟨now, .engineUnreachable, none⟩ }
      else state
  | none => { state with round := some ⟨now, .engineUnreachable, none⟩ }

/-- Steps a round may be preempted at: everything before `commit`. -/
def preemptible : Step → Bool
  | .render | .lint | .plan | .pull | .replace .staging _ | .guard _ => true
  | .idle | .replace .lastGood _ | .commit | .revert _ => false

/-- Starts a round for `target`, in place of one in flight. -/
def start (state : State) (now : Int) (target : Release) (rollback : Bool) (why : String) : State :=
  { state with
    rollout :=
      { step := .render
        since := now
        target := some target
        fromRelease := state.applied
        rollback := rollback
        why := why
        services := []
        reverting := none
        braked := false } }

/-! ## Render, lint, plan, pull -/

/-- The files a round renders: the verified target at hand, or `last-good/` of the release that
runs. -/
def renderFiles (state : State) (pending : Option Target) (disk : Disk) (target : Release) :
    Option Dir :=
  match pending.filter (fun t => decide (t.release = target)) with
  | some t => some (t.files.entries.set pinsPath (.pins t.release))
  | none =>
      if state.applied = some target ∧ pinsRelease disk.lastGood = some target then disk.lastGood
      else none

def writes (files : Files) (dir : Dir) : List Op := dir.map fun entry => .write files entry.1 entry.2

def render (cfg : Config) (host : Host) (disk : Disk) (pending : Option Target) (state : State) :
    Work :=
  match state.rollout.target with
  | none => .stay (finish state host.now .refused none)
  | some target =>
      match renderFiles state pending disk target with
      | none => .stay (finish state host.now .poolUnreachable none)
      | some found =>
          let files := found.delete overlayPath
          let ops := .reset .staging :: writes .staging files
          match readSet cfg (some files) with
          | .error _ => ⟨ops, finish state host.now .refused none, []⟩
          | .ok (_, services) =>
              if host.tokenKept then
                ⟨ops ++ [.write .staging overlayPath (.overlay services target host.inputs)],
                  go state host.now .lint, []⟩
              else ⟨ops, finish state host.now .refused none, []⟩

def lintStep (host : Host) (disk : Disk) (state : State) : Work :=
  let read : Except String Dir := do
    let _ ← readText disk.staging composePath
    let _ ← readText disk.staging setTomlPath
    match pinsRelease disk.staging, disk.staging with
    | some _, some dir => .ok dir
    | _, _ => .error pinsPath
  match read.bind host.violations with
  | .error _ => .stay (finish state host.now .refused none)
  | .ok [] => .stay (go state host.now .plan)
  | .ok (_ :: _) => .stay (finish state host.now .refused none)

/-- The config hash compose gives every service, or nothing if one of them has none. -/
def configHashes (engine : Engine) : List String → Option (OrderedMap String String)
  | [] => some []
  | service :: rest =>
      match engine.configHash service with
      | .yes hash => (configHashes engine rest).map fun wanted => wanted.set service hash
      | .notFound | .noAnswer _ => none

/-- A service whose config hash differs, or that does not run. -/
def toReplace (units : List Container) (wanted : OrderedMap String String)
    (services : List String) : List String :=
  services.filter fun s => !units.any fun u =>
    u.service = s && u.running && some u.configHash = wanted.get s

/-- The plan against what the engine runs: nothing to replace commits at once. -/
def planAgainst (host : Host) (engine : Engine) (wanted : OrderedMap String String)
    (services : List String) (state : State) (units : List Container) : Work :=
  let replace := toReplace units wanted services
  let state := { state with rollout := { state.rollout with services := replace } }
  if replace = [] then .stay (go state host.now .commit)
  else
    match engine.startPull with
    | .yes () => .stay (go state host.now .pull)
    | .notFound | .noAnswer _ => .stay (finish state host.now .pullFailed none)

def plan (cfg : Config) (host : Host) (disk : Disk) (state : State) : Work :=
  match project cfg disk .staging with
  | .error _ => .stay (finish state host.now .refused none)
  | .ok (_, services) =>
      if host.missing ≠ [] then .stay (finish state host.now .held none)
      else
        match host.engine with
        | none => .stay (engineWait state host.now)
        | some engine =>
            match configHashes engine services with
            | none => .stay (engineWait state host.now)
            | some wanted =>
                match engine.observe with
                | .yes units => planAgainst host engine wanted services state units
                | .notFound => planAgainst host engine wanted services state []
                | .noAnswer _ => .stay (engineWait state host.now)

def pull (cfg : Config) (host : Host) (disk : Disk) (state : State) : Work :=
  match project cfg disk .staging with
  | .error _ => .stay (finish state host.now .refused none)
  | .ok _ =>
      match host.engine with
      | none => .stay (engineWait state host.now)
      | some engine =>
          match engine.pollPull with
          | .notFound =>
              match engine.startPull with
              | .yes () => .stay state
              | .notFound | .noAnswer _ => .stay (finish state host.now .pullFailed none)
          | .yes .running => .stay state
          | .yes .done => .stay (go state host.now (.replace .staging .stop))
          | .yes (.failed _) => .stay (finish state host.now .pullFailed none)
          | .noAnswer _ => .stay (engineWait state host.now)

/-! ## Commit and revert -/

/-- `last-good/` but its `pins.json`, copied into the set directory. -/
def writeSetDir (good : Dir) : List Op :=
  (good.delete pinsPath).map fun entry => .writeSet entry.1 entry.2

/-- The last-good directory a commit leaves, and the operations that leave it so: a commit that
stopped after the rename finds `staging/` gone and `last-good/` already the target. -/
def commitFiles (disk : Disk) (target : Release) : Option (List Op) :=
  match disk.staging with
  | some staged =>
      if (OrderedMap.get composePath staged).isSome then
        some (.reset .lastGood :: .rename :: writeSetDir staged)
      else commitAgain
  | none => commitAgain
where
  commitAgain : Option (List Op) :=
    if pinsRelease disk.lastGood = some target then some (writeSetDir (disk.lastGood.getD []))
    else none

/-- The floor a commit leaves: never lower, unless the round went down under a statement. -/
def committedFloor (state : State) (target : Release) : Release :=
  if state.rollout.rollback then target
  else
    match state.floor with
    | some floor => max floor target
    | none => target

def commit (host : Host) (disk : Disk) (state : State) : Work :=
  match state.rollout.target with
  | none => .stay (finish state host.now .refused none)
  | some target =>
      match commitFiles disk target with
      | none =>
          .stay (go state host.now
            (.revert "commit: staging is gone and last-good is not the target"))
      | some ops =>
          let floor := some (committedFloor state target)
          let changed := state.rollout.services ≠ [] ∨ state.rollout.fromRelease ≠ some target
          let committed :=
            { state with
              floor := floor
              vouched := if state.vouched = floor then state.vouched else none
              applied := some target
              quarantine := OrderedMap.delete target state.quarantine }
          ⟨ops, finish committed host.now (if changed then .ok else .noChange) none,
            [.committed target state.rollout.services]⟩

/-- The quarantine after one more revert: one retry after an hour, then none. -/
def revertedOnce (before : Option Quarantine) (now : Int) : Quarantine :=
  let reverts := (before.map Quarantine.reverts).getD 0 + 1
  ⟨if reverts < 2 then some (now + quarantineS) else none, reverts⟩

def finishRevert (host : Host) (disk : Disk) (state : State) : Work :=
  let copied :=
    if (fileIn disk.lastGood composePath).isSome then writeSetDir (disk.lastGood.getD []) else []
  let removed := if host.removes then [Op.removeStaging] else []
  let state :=
    match state.rollout.target with
    | some target =>
        { state with
          quarantine := state.quarantine.set target
            (revertedOnce (state.quarantine.get target) host.now) }
    | none => state
  ⟨copied ++ removed, finish state host.now .rolledBack state.rollout.target, []⟩

def revert (host : Host) (disk : Disk) (state : State) (why : String) : Work :=
  if (fileIn disk.lastGood composePath).isSome then
    .stay (go { state with rollout := { state.rollout with reverting := some why } } host.now
      (.replace .lastGood .stop))
  else finishRevert host disk state

/-- Whether `target` waits in quarantine now. -/
def quarantined (state : State) (target : Release) (now : Int) : Bool :=
  match state.quarantine.get target with
  | none => false
  | some q =>
      match q.untilTime with
      | some untilTime => decide (now < untilTime)
      | none => true

/-! ## Replace -/

/-- What a phase of a replace found. -/
inductive Then where
  | go (step : Step)
  /-- Not yet: the same phase next tick. -/
  | stay
  /-- The engine did not answer: change nothing, say so. -/
  | wait
  | fail (why : String)
  /-- `last-good/` runs and answers again. -/
  | reverted

/-- The containers of the project; like the functions below, `none` once the engine did not
answer. -/
def observed (engine : Engine) : Option (List Container) :=
  match engine.observe with
  | .yes units => some units
  | .notFound => some []
  | .noAnswer _ => none

def stopEach (engine : Engine) : List Container → Option Unit
  | [] => some ()
  | u :: rest =>
      match engine.beginDrain u.id with
      | .noAnswer _ => none
      | .yes _ | .notFound => stopEach engine rest

/-- Sends every running old container its stop signal. -/
def stopOld (engine : Engine) : Option Unit := do
  let units ← observed engine
  stopEach engine (units.filter fun u => !u.stopped)

def allDrained (engine : Engine) : List Container → Option Bool
  | [] => some true
  | u :: rest =>
      match engine.drained u.id with
      | .noAnswer _ => none
      | .yes true => allDrained engine rest
      | .yes false | .notFound => (allDrained engine rest).map fun _ => false

def removeEach (engine : Engine) (force : Bool) : List Container → Option Unit
  | [] => some ()
  | u :: rest =>
      match engine.remove u.id force with
      | .noAnswer _ => none
      | .yes _ | .notFound => removeEach engine force rest

/-- Removes the old containers once they stopped, or by force once `late`. -/
def drainOld (engine : Engine) (late : Bool) : Option Bool := do
  let units ← observed engine
  let stopped ← allDrained engine units
  if !stopped && !late then some false
  else do
    removeEach engine (!stopped) units
    some true

/-- The first service's container once every service runs and answers its ready check. -/
def readyEach (engine : Engine) (set : SetToml) (units : List Container) :
    List String → Option Container → Option (Option Container)
  | [], first => some first
  | s :: rest, first =>
      match units.find? fun u => u.service = s && u.running with
      | none => some none
      | some u =>
          let first := some (first.getD u)
          match set.ready.get s with
          | none => readyEach engine set units rest first
          | some r =>
              match engine.ready u.id r.http with
              | .yes true => readyEach engine set units rest first
              | .yes false | .notFound => some none
              | .noAnswer _ => none

def waitReady (engine : Engine) (set : SetToml) (services : List String) :
    Option (Option Container) := do
  let units ← observed engine
  readyEach engine set units services none

def afterDrain (files : Files) (now : Int) : Option Bool → Then
  | none => .wait
  | some true => .go (.replace files (.create now))
  | some false => .stay

def afterReady (files : Files) (now since wait : Int) : Option (Option Container) → Then
  | none => .wait
  | some (some u) =>
      match files with
      | .staging => .go (.guard ⟨now, u.id, u.restarts, 0, now⟩)
      | .lastGood => .reverted
  | some none => if now ≥ since + wait then .fail "did not answer /ready" else .stay

/-- One phase: stop the old container, remove it, create the new one, wait for its `/ready`. -/
def replacePhase (engine : Engine) (set : SetToml) (services : List String) (files : Files)
    (now : Int) : Phase → Then
  | .stop =>
      match stopOld engine with
      | none => .wait
      | some () => .go (.replace files (.drain now))
  | .drain since => afterDrain files now (drainOld engine (now ≥ since + graceS + graceMarginS))
  | .create since =>
      match engine.create with
      | .yes () => .go (.replace files (.ready now))
      | .notFound =>
          if now < since + readyWait set then .stay else .fail "compose created nothing"
      | .noAnswer why => if now < since + readyWait set then .stay else .fail ("create: " ++ why)
  | .ready since => afterReady files now since (readyWait set) (waitReady engine set services)

def failReplace (host : Host) (disk : Disk) (state : State) (files : Files) (why : String) :
    Work :=
  match files with
  | .staging => .stay (go state host.now (.revert ("replace: " ++ why)))
  | .lastGood => finishRevert host disk state

/-- A guard that begins, as a deed. -/
def beginning (state : State) : Step → List Deed
  | .guard g => [.guardBegan state.rollout.target g.container g.started]
  | _ => []

def replace (cfg : Config) (host : Host) (disk : Disk) (state : State) (files : Files)
    (phase : Phase) : Work :=
  match project cfg disk files with
  | .error why => failReplace host disk state files why
  | .ok (set, all) =>
      -- A revert replaces every service: the round's plan was against staging.
      let services := match files with
        | .staging => state.rollout.services
        | .lastGood => all
      match host.engine with
      | none => .stay (engineWait state host.now)
      | some engine =>
          match replacePhase engine set services files host.now phase with
          | .go step =>
              -- The old dispatcher was sent its stop: one recreation of it, once per replace.
              if phase = .stop ∧ state.rollout.braked = true then
                ⟨[], go { state with brake := state.brake.record host.now [.restart] } host.now
                  step, .restarted host.now :: beginning state step⟩
              else ⟨[], go state host.now step, beginning state step⟩
          | .stay => .stay state
          | .wait => .stay (engineWait state host.now)
          | .fail why => failReplace host disk state files why
          | .reverted => finishRevert host disk state

/-! ## Guard -/

/-- One guard sample of the dispatcher, from its state and its exits since the guard began. -/
def judge (g : Guard) (u : Container) (exits : List Exit) (settling : Bool) :
    Guard × Except String Bool :=
  if exits.any fun e => e.code ≠ 0 && e.code ≠ 75 then (g, .error "the dispatcher exited")
  else
    let ordered := exits.countP fun e => e.code = 75
    let unordered := u.restarts - g.restarts0 - ordered
    if unordered ≥ 2 then (g, .error "the dispatcher restarted")
    else if u.restarting then
      let g := { g with streak := g.streak + 1 }
      (g, if g.streak ≥ 2 then .error "the dispatcher keeps restarting" else .ok false)
    else
      let g := { g with streak := 0 }
      if u.running then (g, .ok true)
      else if settling then (g, .ok false)
      else (g, .error "the dispatcher is not restarting")

/-- An ordered restart happened within the ready wait. -/
def settlingAt (exits : List Exit) (now wait : Int) : Bool :=
  exits.any fun e => e.code = 75 && decide (now - e.time ≤ wait)

def guardStays (state : State) (g : Guard) : State :=
  { state with rollout := { state.rollout with step := .guard g } }

def guardFails (host : Host) (state : State) (why : String) : State :=
  go state host.now (.revert ("guard: " ++ why))

/-- A sample that passed: the guard ends once it is old enough. -/
def guardPassed (host : Host) (state : State) (g : Guard) (guardS : Nat) : Work :=
  if host.now ≥ g.started + guardS then
    ⟨[], go state host.now .commit,
      [.sampled g.container host.now true,
        .watched state.rollout.target g.container g.started guardS host.now]⟩
  else ⟨[], guardStays state g, [.sampled g.container host.now true]⟩

/-- What a sample that ran then answers on `/ready`, where the set names a check. -/
def guardReady (host : Host) (engine : Engine) (state : State) (g : Guard) (http : Option String)
    (guardS : Nat) (settling : Bool) : Work :=
  match http with
  | none => guardPassed host state g guardS
  | some http =>
      match engine.ready g.container http with
      | .yes true => guardPassed host state g guardS
      | .yes false | .notFound =>
          if settling then ⟨[], guardStays state g, [.sampled g.container host.now true]⟩
          else ⟨[], guardFails host state "the dispatcher lost /ready",
            [.sampled g.container host.now true]⟩
      | .noAnswer _ => ⟨[], engineWait state host.now, [.sampled g.container host.now true]⟩

def guardSample (host : Host) (engine : Engine) (state : State) (g : Guard) (set : SetToml)
    (services : List String) (u : Container) (exits : List Exit) : Work :=
  let http := services.head?.bind fun s => (set.ready.get s).map Ready.http
  let settling := settlingAt exits host.now (readyWait set)
  match judge { g with lastSample := host.now } u exits settling with
  | (_, .error why) =>
      ⟨[], guardFails host state why, [.sampled g.container host.now false]⟩
  | (g, .ok false) => ⟨[], guardStays state g, [.sampled g.container host.now true]⟩
  | (g, .ok true) => guardReady host engine state g http set.guardS settling

def guard (cfg : Config) (host : Host) (disk : Disk) (state : State) (g : Guard) : Work :=
  if host.now - g.lastSample < sampleS then .stay state
  else
    match project cfg disk .staging with
    | .error why => .stay (guardFails host state why)
    | .ok (set, services) =>
        match host.engine with
        | none => .stay (engineWait state host.now)
        | some engine =>
            match engine.inspect g.container with
            | .notFound => .stay (guardFails host state "the dispatcher's container is gone")
            | .noAnswer _ => .stay (engineWait state host.now)
            | .yes u =>
                match engine.exitsSince g.container g.started with
                | .yes exits => guardSample host engine state g set services u exits
                | .notFound => guardSample host engine state g set services u []
                | .noAnswer _ => .stay (engineWait state host.now)

/-- One step of the round in flight. -/
def step (cfg : Config) (host : Host) (disk : Disk) (pending : Option Target) (state : State) :
    Work :=
  match state.rollout.step with
  | .idle => .stay state
  | .render => render cfg host disk pending state
  | .lint => lintStep host disk state
  | .plan => plan cfg host disk state
  | .pull => pull cfg host disk state
  | .replace files phase => replace cfg host disk state files phase
  | .guard g => guard cfg host disk state g
  | .commit => commit host disk state
  | .revert why => revert host disk state why

end OmarchyPool.Agent
