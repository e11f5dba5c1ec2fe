/-
# OmarchyPool.Dispatch.Dispatcher -- the dispatcher's loop

`dispatch/mod.rs` as programs over a host: `readopt`, the boot; `tick`, one turn of the loop, with
what it calls -- `step` and its phases, `start` and `startJob`, `beginEnding`, `end` and `cleanup`,
the disk watcher, the probe, the claim and `take`.  Every engine call, file operation, report and
change of the lease table is a statement of its own (`Deed`), so the process may die between any two
of them; `now` is read once, at the head of a tick, as the source reads it.

Not modelled: the orders' texts and their answers, the caches' upkeep, the holds on builds and on
sandboxed starts (the latter is `Outside.sandboxHeld`), the renewed job token, a release's
directory, the `/ready` and `/leases` answers.
-/
import OmarchyPool.Dispatch.Host
import OmarchyPool.Lib.Process

namespace OmarchyPool.Dispatch

open OmarchyPool.Lib

set_option autoImplicit false

/-- What a dispatcher is started with.  The capacity file's units are here: they do not change. -/
structure Config where
  constants : Constants
  caps : Caps
  units : Nat
  jobReserved : Nat
  floorGb : Nat
  heartbeat : Nat
  leaseFor : Nat
  grace : Nat
  idleClaim : Nat
  slots : Nat
  /-- The envelope grants a bridge network. -/
  direct : Bool
  secretsDir : Bool
  agentHeld : Option String
  taskRoot : Bool
  agentUser : Bool
  imageOk : String → Bool
  nativeArch : String
  version : String
  jobTimeout : String → Nat

def retryAfter : Nat := 60
def claimRetry : Nat := 60
def memRamp : Nat := 5 * 60
def probeEvery : Nat := 30 * 60
def probeRetryFirst : Nat := 15

/-- `probe::next_after`. -/
def nextAfter (now failures : Nat) : Nat :=
  if failures = 0 then now + probeEvery
  else now + min (probeRetryFirst * 2 ^ min (failures - 1) 16) probeEvery

abbrev Prog := Program Host Deed String

/-- One statement, and what it reads of the host it finds. -/
def act {α : Type} (d : Deed) (read : Host → α) : Prog α := .stmt d d.effect fun h => .pure (read h)

def look {α : Type} (read : Host → α) : Prog α := act .look read

def does (d : Deed) : Prog Unit := act d fun _ => ()

/-! ## The engine -/

/-- The task container's state; an error when the engine did not answer. -/
def inspect (k : Key) : Prog (Except Unit (Option Status)) :=
  look fun h => if h.outside.inspects then .ok (h.taskStatus k) else .error ()

def engineRun (k : Key) (c : Call) : Prog Bool := act (.call k c) fun h => h.answersOk k c

/-- A plan's calls in order; the index of the one that failed. -/
def runPlan (k : Key) : List Call → Nat → Prog (Option Nat)
  | [], _ => pure none
  | c :: rest, i => do
      let ok ← engineRun k c
      if ok then runPlan k rest (i + 1) else pure (some i)

def removeNames : List (Key × Role) → Prog Unit
  | [] => pure ()
  | name :: rest => do
      does (.removeName name.1 name.2)
      removeNames rest

/-- Containers of this host that no lease in `held` owns go. -/
def sweep (held : List Key) : Prog (Option String) := do
  let names ← look fun h =>
    if h.outside.lists then some (h.containers.map fun c => (c.key, c.role)) else none
  match names with
  | none => pure (some "listing this host's task containers")
  | some names => do
      removeNames (names.filter fun name => !held.contains name.1)
      let listed ← look fun h => h.outside.networks
      if listed then pure none else pure (some "listing this host's task networks")

/-- The lowest /28 no lease and no probe holds, once what no lease or probe owns is swept. -/
def freeSlot (cfg : Config) : Prog (Option Nat) := do
  let held ← look fun h => h.leases.map Live.key ++ (h.holds.map fun held => (0, held.2)).toList
  let _ ← sweep held
  look fun h => (List.range cfg.slots).find? fun i => !h.slotsUsed.contains i

/-! ## The end of a lease -/

def beginEnding (live : Live) (ending : Ending) : Prog Live := do
  let live := { live with lease := { live.lease with ending := some ending }, child := false }
  does (.save live.lease)
  does (.removeLease live.key)
  pure live

def lost (live : Live) (why : String) : Prog Live :=
  beginEnding live (.lost ("failed before docker ran — " ++ why))

def cleanup (l : Lease) : Prog Unit := do
  does (.removeLease l.key)
  match l.agentCalls with
  | some cap => do
      does (.count l.key cap)
      does (.clearDir l.key)
      does (.unlink l.key)
  | none => do
      does (.clearDir l.key)
      does (.unlink l.key)

/-- The report an ending calls for, then the cleanup. -/
def endLease (live : Live) : Prog Unit :=
  match live.lease.ending with
  | some (.stopped state) => do
      does (.report (.ended live.key (.stopped state)))
      cleanup live.lease
  | some (.lost why) => do
      does (.report (.ended live.key (.lost why)))
      cleanup live.lease
  | some (.revoked release) => do
      does (.report (.ended live.key (.revoked release)))
      cleanup live.lease
  | some .expired => cleanup live.lease
  | none => cleanup live.lease

/-- A lease being ended: its report and its cleanup only once the engine says its container is gone. -/
def stepEnding (live : Live) : Prog (Option Live) := do
  let busy ← look fun h =>
    (live.prep && decide (h.outside.prepared = .busy)) || (live.fin && decide (h.outside.finished = .busy))
  if busy then pure (some live)
  else do
    let state ← inspect live.key
    match state with
    | .ok none => do
        let poolTime ← look fun h => h.outside.poolTime
        if poolTime then do
          endLease live
          pure none
        else pure (some live)
    | _ => do
        does (.removeLease live.key)
        does (.removeName live.key .task)
        pure (some live)

/-- The finish's answer, when it has one. -/
def afterFin (live : Live) (now : Nat) : Prog (Option Live) :=
  if live.fin then do
    let finished ← look fun h => h.outside.finished
    match finished with
    | .busy => pure (some live)
    | .panicked => pure (some { live with fin := false })
    | .done (.error _) => pure (some { live with fin := false, retryAt := now + retryAfter })
    | .done (.ok lost) => do
        does (.report (.finished live.key lost))
        cleanup live.lease
        pure none
  else pure (some live)

/-! ## The start of a lease -/

/-- What a start that may go ahead was given: its slot, its sidecar's calls, its network. -/
structure Ready where
  slot : Nat
  agentCalls : Option Nat
  direct : Bool

/-- Why a lease is handed back before anything of it starts: as `lost` words it, or in its own words. -/
inductive Refusal where
  | before (why : String)
  | own (why : String)

/-- The checks a task passes before its slot is chosen: its lane, its disk, its network, its sandbox. -/
def refusesTask (cfg : Config) (l : Lease) (o : Outside) : Option Refusal :=
  let engine := o.capacity.map Capacity.engineFreeGb
  let need := l.diskGb + cfg.floorGb
  let show' := fun (v : Option Nat) => (v.map toString).getD "?"
  if l.emulated && !(o.capacity.any fun c => c.emulated.contains l.arch) then
    some (.own ("this host runs no emulated lane of " ++ l.arch ++ " now (run/capacity.json): handed back"))
  else if l.task.kind = "build" && (o.workFreeGb.any (· < need) || engine.any (· < need)) then
    some (.own ("not started: " ++ show' o.workFreeGb ++ " GB free on the work root and " ++ show' engine ++
      " on the engine's, below its budget of " ++ toString l.diskGb ++ " GB plus the floor of " ++
      toString cfg.floorGb))
  else
    match o.direct with
    | .error why => some (.before why)
    | .ok direct =>
        if direct && !cfg.direct then
          some (.own (l.task.name ++ "'s signed network exception (factory/sizing: network = \"direct\") needs a bridge network, which this host's envelope does not grant (agent.toml's direct_network): handed back"))
        else if sandboxed l.task.trust l.task.kind (l.task.review || l.task.pkgbuildRef.startsWith "review:") then
          match o.capacity with
          | none =>
              some (.before "run/capacity.json does not read now: a task of a contributor's waits for the sandbox this host may have")
          | some c =>
              if c.sandbox.isSome && l.emulated then
                some (.before ("this host's sandbox does not cover its emulated " ++ l.arch ++
                  " lane, which runs the project's own recipes only: handed back"))
              else none
        else none

/-- The checks after its budget: its trust, its caches, its agent, its directories, its plan. -/
def refusesHost (cfg : Config) (l : Lease) (kind : Kind) (o : Outside) : Option String :=
  if (Trust.of l.task.trust).isNone then
    some ("trust " ++ l.task.trust ++ " is neither community nor project")
  else if let some e := o.caches then some ("its caches: " ++ e)
  else if let some why := cfg.agentHeld.filter fun _ => kind.model then some why
  else if let some e := o.writable.filter fun _ => cfg.taskRoot then
    some ("its directories for the remapped task root: " ++ e)
  else if let some e := o.usageDir.filter fun _ => cfg.agentUser && kind.model then
    some ("its agent sidecar's usage directory: " ++ e)
  else if kind.model && !(cfg.secretsDir && cfg.agentHeld.isNone) then
    some "a model task on a host with no agent key (OMARCHY_SECRETS_DIR/agent.env)"
  else o.planned

/-- A model kind's grant; none of the day left is no start. -/
def grantCalls (cfg : Config) (kind : Kind) (now : Nat) : Prog (Except String (Option Nat)) :=
  if kind.model then do
    let left ← act (.grant now) fun h => grant cfg.caps (Day.spent h.ledger now) h.reserved
    if left = 0 then
      pure (.error ("this host's agent budget for today (" ++ toString cfg.caps.callsPerDay ++
        " calls) is spent; the claims offer no agent slot until tomorrow (UTC)"))
    else pure (.ok (some left))
  else pure (.ok none)

/-- `start` up to its first write. -/
def checkStart (cfg : Config) (l : Lease) (kind : Kind) (now : Nat) : Prog (Except Refusal Ready) := do
  let o ← look fun h => h.outside
  match refusesTask cfg l o with
  | some refusal => pure (.error refusal)
  | none => do
      let slot ← freeSlot cfg
      match slot with
      | none => pure (.error (.before "every task network is in use"))
      | some slot => do
          let calls ← grantCalls cfg kind now
          match calls with
          | .error why => pure (.error (.before why))
          | .ok calls => do
              let host ← look fun h => refusesHost cfg l kind h.outside
              match host with
              | some why => pure (.error (.before why))
              | none => pure (.ok ⟨slot, calls, o.direct.toOption.getD false⟩)

/-- `start` from its first write on: the lease file, then the plan's calls. -/
def launch (live : Live) (kind : Kind) (ready : Ready) (now : Nat) : Prog Live := do
  let live :=
    { live with
      lease :=
        { live.lease with
          phase := .running
          startedAt := some now
          netSlot := some ready.slot
          agentCalls := ready.agentCalls } }
  does (.save live.lease)
  does (.removeLease live.key)
  let bridged ← look fun h => ready.direct || h.outside.bridge
  let calls := plan kind ready.direct (ready.agentCalls.getD 1)
  let failed ← if bridged then runPlan live.key calls 0 else pure (some 0)
  match failed with
  | none => pure live
  | some i =>
      -- A sidecar that never started spent nothing of the day.
      let kept := if (agentStart calls).all (i ≤ ·) then none else live.lease.agentCalls
      beginEnding { live with lease := { live.lease with agentCalls := kept } } (.lost "it did not start")

def startTask (cfg : Config) (live : Live) (now : Nat) : Prog Live :=
  match kindOf live.lease with
  | none => beginEnding live (.lost "no container kind")
  | some kind => do
      let checked ← checkStart cfg live.lease kind now
      match checked with
      | .error (.before why) => lost live why
      | .error (.own why) => beginEnding live (.lost why)
      | .ok ready => launch live kind ready now

/-- A pool job's start: its helpers' lanes and their /28, its files, its child process. -/
def startJob (cfg : Config) (live : Live) (now : Nat) : Prog Live := do
  let o ← look fun h => h.outside
  let native := (o.capacity.map Capacity.arch).getD cfg.nativeArch
  let lanes := (o.capacity.map fun c => c.arch :: c.emulated).getD []
  let missing := (helperArches live.lease.task native).filter fun arch => !lanes.contains arch
  if missing ≠ [] then
    beginEnding live (.lost ("its helper containers run " ++ " and ".intercalate missing ++
      ", and this host runs no lane of it now (run/capacity.json): handed back"))
  else do
    let slot ← if hasHelpers live.lease.task.kind then freeSlot cfg else pure none
    if hasHelpers live.lease.task.kind && slot.isNone then
      beginEnding live (.lost "every task network is in use: its helpers have none")
    else do
      let files ← look fun h => h.outside.jobFiles
      match files with
      | some e => beginEnding live (.lost ("its job's files could not be written: " ++ e))
      | none => do
          let live :=
            { live with
              lease := { live.lease with phase := .running, startedAt := some now, netSlot := slot } }
          does (.save live.lease)
          let spawned ← look fun h => h.outside.spawns
          match spawned with
          | none => pure { live with child := true }
          | some e => beginEnding live (.lost ("its job's process did not start: " ++ e))

def start (cfg : Config) (live : Live) (now : Nat) : Prog Live :=
  if live.isJob then startJob cfg live now else startTask cfg live now

/-! ## One lease's step -/

/-- A preparing lease: its inputs staged in a thread, then its start. -/
def stepPreparing (cfg : Config) (live : Live) (now : Nat) : Prog (Option Live) := do
  let live := if !live.prep && live.retryAt ≤ now then { live with prep := true } else live
  if live.prep then do
    let prepared ← look fun h => h.outside.prepared
    match prepared with
    | .busy => pure (some live)
    | .panicked => pure (some { live with prep := false })
    | .done (.ok _) => do
        let live ← start cfg { live with prep := false } now
        pure (some live)
    | .done (.error (.retry _)) => pure (some { live with prep := false, retryAt := now + retryAfter })
    | .done (.error (.fail error)) => do
        does (.report (.failed live.key error))
        cleanup live.lease
        pure none
  else pure (some live)

/-- A running pool job: its child's end, or its timeout. -/
def stepJob (cfg : Config) (live : Live) (now : Nat) : Prog (Option Live) :=
  if live.child then do
    let waited ← look fun h => h.outside.child
    if waited = .busy && decide (now < live.lease.startedAt.getD now + cfg.jobTimeout live.lease.task.kind) then
      pure (some live)
    else do
      does (.removeLease live.key)
      let live := { live with lease := { live.lease with phase := .finishing }, child := false, fin := true }
      does (.save live.lease)
      afterFin live now
  else do
    let live ← beginEnding live (.lost "its job's process is not this dispatcher's")
    pure (some live)

/-- A running task: its container's end. -/
def stepRunning (live : Live) (now : Nat) : Prog (Option Live) := do
  let state ← inspect live.key
  match state with
  | .error _ => pure (some live)
  | .ok (some status) =>
      if status = .running then pure (some live)
      else if status.ended then do
        let live := { live with lease := { live.lease with phase := .finishing }, fin := true }
        does (.save live.lease)
        afterFin live now
      else if status.starting && decide (now < live.lease.startedAt.getD now + 60) then pure (some live)
      else do
        let live ← beginEnding live (.lost ("its container is " ++ status.text))
        pure (some live)
  | .ok none => do
      let live ← beginEnding live (.lost "its container is gone: the engine lost it")
      pure (some live)

/-- A task being finished: in a thread, from the container that ended. -/
def stepFinishing (live : Live) (now : Nat) : Prog (Option Live) :=
  if !live.fin && live.retryAt ≤ now then do
    let state ← inspect live.key
    match state with
    | .error _ => pure (some { live with retryAt := now + 1 })
    | .ok (some status) =>
        if status.ended then afterFin { live with fin := true } now
        else do
          let live ← beginEnding live (.lost ("its container is " ++ status.text ++ " after it ended"))
          pure (some live)
    | .ok none => do
        let live ← beginEnding live (.lost "its container is gone before its outputs were collected")
        pure (some live)
  else afterFin live now

def stepPhase (cfg : Config) (live : Live) (now : Nat) : Prog (Option Live) :=
  match live.lease.phase with
  | .preparing => stepPreparing cfg live now
  | .running => if live.isJob then stepJob cfg live now else stepRunning live now
  | .finishing =>
      if live.isJob then
        afterFin (if !live.fin && live.retryAt ≤ now then { live with fin := true } else live) now
      else stepFinishing live now

/-- The heartbeat, and the ending it calls for. -/
def heartbeat (cfg : Config) (live : Live) (now : Nat) : Prog (Live × Option Ending) := do
  let o ← look fun h => h.outside
  if decide (live.beatAt + cfg.heartbeat ≤ now) && o.poolTime then
    match o.beat with
    | .accepted => do
        let live := { live with lease := { live.lease with lastBeat := now }, beatAt := now }
        does (.save live.lease)
        pure (live, none)
    | .stop state =>
        pure ({ live with beatAt := now },
          some (if state = "revoked" then .revoked live.lease.release else .stopped state))
    | .nothing => pure ({ live with beatAt := now }, none)
  else pure (live, none)

def step (cfg : Config) (live : Live) (now : Nat) : Prog (Option Live) :=
  if live.lease.ending.isSome then stepEnding live
  else do
    let revoked ← look fun h => h.outside.revoked.contains live.lease.release
    if revoked then do
      let live ← beginEnding live (.revoked live.lease.release)
      pure (some live)
    else do
      let beaten ← heartbeat cfg live now
      match beaten.2 with
      | some ending => do
          let live ← beginEnding beaten.1 ending
          pure (some live)
      | none =>
          if beaten.1.lease.lastBeat + (cfg.leaseFor + cfg.grace) < now then do
            let live ← beginEnding beaten.1 .expired
            pure (some live)
          else stepPhase cfg beaten.1 now

/-- A lease is out of the table while it is stepped. -/
def stepKey (cfg : Config) (now : Nat) (k : Key) : Prog Unit := do
  let live ← act (.takeOut k) fun h => h.liveOf k
  match live with
  | none => does (.letGo k)
  | some live => do
      let stepped ← step cfg live now
      match stepped with
      | some live => does (.putBack live)
      | none => does (.letGo k)

def stepAll (cfg : Config) (now : Nat) : List Key → Prog Unit
  | [] => pure ()
  | k :: rest => do
      stepKey cfg now k
      stepAll cfg now rest

/-! ## The disk watcher -/

/-- The running build that started last, the later of two in the table. -/
def youngest : List Live → Option Live
  | [] => none
  | live :: rest =>
      let counts := decide (live.lease.task.kind = "build" ∧ live.lease.phase = .running ∧ live.lease.ending = none)
      match youngest rest with
      | none => if counts then some live else none
      | some other =>
          if counts && decide (other.lease.startedAt.getD 0 < live.lease.startedAt.getD 0) then some live
          else some other

def Ending.isLost : Ending → Bool
  | .lost _ => true
  | _ => false

/-- Free space below the floor kills the youngest running build, one at a time. -/
def watchDisk (cfg : Config) : Prog Unit := do
  let h ← look fun h => h
  let engine := h.outside.capacity.map Capacity.engineFreeGb
  let readAt := h.outside.capacity.map Capacity.read
  if !(h.outside.workFreeGb.any (· < cfg.floorGb)) && !(engine.any (· < cfg.floorGb)) then
    does (.remember { h.memo with diskLow := false })
  else do
    does (.remember { h.memo with diskLow := true })
    let engineLow := engine.any (· < cfg.floorGb) && decide (readAt ≠ h.memo.killedAt)
    if !(h.outside.workFreeGb.any (· < cfg.floorGb)) && !engineLow then pure ()
    else if h.leases.any fun live => live.lease.ending.any Ending.isLost then pure ()
    else
      match youngest h.leases with
      | none => pure ()
      | some live => do
          does (.takeOut live.key)
          does (.remember { h.memo with diskLow := true, killedAt := if engineLow then readAt else h.memo.killedAt })
          let live ← beginEnding live (.lost "the disk watcher killed it")
          does (.putBack live)

/-! ## The probe -/

def spawnProbe (cfg : Config) (now : Nat) : Prog Unit :=
  if cfg.secretsDir && cfg.agentHeld.isNone then do
    let slot ← freeSlot cfg
    let h ← look fun h => h
    match slot with
    | none => does (.remember { h.memo with probeAt := now + probeEvery })
    | some slot => do
        does (.hold slot h.outside.probeGen)
        does (.remember { h.memo with probing := true })
  else pure ()

/-- The next probe when one is due, and a finished one's answer. -/
def stepProbe (cfg : Config) (now : Nat) : Prog Unit := do
  let due ← look fun h => !h.memo.probing && decide (h.memo.probeAt ≤ now)
  let _ ← if due then spawnProbe cfg now else pure ()
  let h ← look fun h => h
  if h.memo.probing then
    match h.outside.probed with
    | .busy => pure ()
    | .panicked => does (.remember { h.memo with probing := false })
    | .done (ran, ok) => do
        does .unhold
        let _ ← if ran then does (.add now 1) else pure ()
        let failures := if ok then 0 else h.memo.probeFailures + 1
        does (.remember
          { h.memo with probing := false, probeFailures := failures, probeAt := nextAfter now failures })
  else pure ()

/-! ## The claim -/

/-- The units of the leases in a table that `counts`. -/
def unitsOf (counts : Live → Bool) (leases : List Live) : Nat :=
  ((leases.filter counts).map fun live => live.lease.units).sum

/-- What a task may take now: the units beside its leases and the job unit. -/
def freeUnits (cfg : Config) (leases : List Live) : Nat :=
  let used := unitsOf (fun _ => true) leases
  let jobsUsed := unitsOf Live.isJob leases
  cfg.units - max cfg.jobReserved jobsUsed - (used - jobsUsed)

/-- One job at a time, in the job unit or in a unit still free. -/
def jobFree (cfg : Config) (leases : List Live) : Nat :=
  if leases.any Live.isJob then 0 else min (cfg.units - unitsOf (fun _ => true) leases) 1

/-- What the leases just started still owe the memory. -/
def promised (cfg : Config) (now : Nat) (leases : List Live) : Nat :=
  ((leases.filter fun live => live.lease.ending.isNone &&
      match live.lease.phase with
      | .preparing => true
      | .running => decide (now < live.lease.startedAt.getD now + memRamp)
      | .finishing => false).map fun live => cfg.constants.memGb live.lease.units).sum

/-- What a task, and a pool job, may take of this claim. -/
def roomOf (cfg : Config) (now : Nat) (h : Host) : Nat × Nat :=
  match h.outside.capacity with
  | none => (0, 0)
  | some c =>
      let mem := h.outside.memAvailableGb.map (· - promised cfg now h.leases)
      let offer := cfg.constants.offer (freeUnits cfg h.leases) mem
      let jobOffer := cfg.constants.offer (jobFree cfg h.leases) mem
      let want := !c.belowMinimum && (decide (0 < offer) || decide (0 < jobOffer)) &&
        decide (cfg.floorGb ≤ c.engineFreeGb) && cfg.imageOk c.arch && !h.memo.diskLow &&
        !h.outside.sandboxHeld && !h.outside.revoked.contains cfg.version
      if want then (offer, jobOffer) else (0, 0)

/-- Why a task is given back: the report's `error`, `lost` and `final`. -/
structure Rejected where
  error : String
  lost : Bool
  final : Bool

/-- What `take` makes of a task: a lease, or why it is given back. -/
def leaseFor (cfg : Config) (handed : HostTask) (gen : String) (room : Nat) (cap : Option Capacity) (now : Nat) :
    Except Rejected Lease :=
  let task := handed.task
  let job := isJob task.kind
  let units := max (handed.units.getD 1) 1
  let native := (cap.map Capacity.arch).getD cfg.nativeArch
  let lanes := (cap.map fun c => c.arch :: c.emulated).getD []
  let missing := (helperArches task native).filter fun arch => !lanes.contains arch
  if room < units then
    .error ⟨"this host offered " ++ toString room ++ " unit(s) and was handed " ++ toString units, true, false⟩
  else if (platformOf task.arch).isNone || !nameOk task.name then
    .error ⟨task.name ++ " for " ++ task.arch ++ " is outside the grammar of names and lanes", false, true⟩
  else if !job && (Trust.of task.trust).isNone then
    .error ⟨"trust " ++ task.trust ++ " is neither community nor project", false, true⟩
  else if !kinds.contains task.kind && !job then
    .error ⟨"this dispatcher runs builds, trials, audits and pool jobs, not " ++ task.kind, false, false⟩
  else if job && missing ≠ [] then
    .error ⟨"its helper containers run " ++ " and ".intercalate missing ++
      ", and this host runs no lane of it (its lanes: " ++ ", ".intercalate lanes ++ "): handed back", true, false⟩
  else
    match laneOf task handed.lane cap cfg.nativeArch cfg.imageOk with
    | .error why => .error ⟨why, true, false⟩
    | .ok lane =>
        .ok
          { task := task, gen := gen, units := units, diskGb := handed.diskGb.getD 0
            release := (handed.release.filter nameOk).getD cfg.version
            lastBeat := now, startedAt := none, phase := .preparing, ending := none
            netSlot := none, agentCalls := none, lane := some lane }

def take (cfg : Config) (handed : HostTask) (room : Nat × Nat) (cap : Option Capacity) (now : Nat) : Prog Unit :=
  match handed.leaseGen.filter genOk with
  | none =>
      does (.report (.refused handed.task.id "the pool handed a host a lease without a generation" false false))
  | some gen => do
      let held ← look fun h => (h.liveOf (handed.task.id, gen)).isSome
      if held then pure ()
      else
        match leaseFor cfg handed gen (if isJob handed.task.kind then room.2 else room.1) cap now with
        | .error why => does (.report (.refused handed.task.id why.error why.lost why.final))
        | .ok lease => do
            does (.take lease)
            does (.putBack { Live.new lease with beatAt := now })

def claim (cfg : Config) (now : Nat) : Prog Unit := do
  let h ← look fun h => h
  if now < h.memo.nextClaim then pure ()
  else do
    let answer ← look fun h => h.outside
    match answer.claim with
    | .nothing => does (.remember { h.memo with nextClaim := now + cfg.idleClaim })
    | .task handed => do
        take cfg handed (roomOf cfg now h) h.outside.capacity now
        does (.remember { h.memo with nextClaim := now })
    | .orders recheck =>
        does (.remember
          { h.memo with
            probeAt := if recheck && !h.memo.probing then now else h.memo.probeAt
            nextClaim := now + answer.wait })
    | .badTask id => do
        does (.report (.refused id "this dispatcher could not read this task" false false))
        does (.remember { h.memo with nextClaim := now + cfg.idleClaim })
    | .unreadable => does (.remember { h.memo with nextClaim := now + cfg.idleClaim })
    | .updateRequired recheck =>
        does (.remember
          { h.memo with
            probeAt := if recheck && !h.memo.probing then now else h.memo.probeAt
            nextClaim := now + 300 })
    | .refused => does (.remember { h.memo with nextClaim := now + claimRetry })
    | .lost => does (.remember { h.memo with nextClaim := now + claimRetry })

/-! ## The loop and the boot -/

def tick (cfg : Config) : Prog Unit := do
  let now ← look fun h => h.clock
  let keys ← look fun h => h.leases.map Live.key
  stepAll cfg now keys
  watchDisk cfg
  let terminating ← look fun h => h.outside.terminating
  if terminating then pure ()
  else do
    stepProbe cfg now
    claim cfg now

/-- A pool job a previous dispatcher ran: its child went with that dispatcher. -/
def readoptJob (live : Live) : Prog Live :=
  match live.lease.phase with
  | .preparing => pure live
  | .finishing => pure live
  | .running => do
      let result ← look fun h => h.outside.result
      if result then do
        let live := { live with lease := { live.lease with phase := .finishing } }
        does (.save live.lease)
        pure live
      else
        beginEnding live
          (.lost "its job's process ended with the dispatcher that ran it (a pool job runs in the dispatcher's own process tree)")

/-- A task a previous dispatcher ran, by what the engine says of its container. -/
def readoptTask (live : Live) (now : Nat) : Prog Live := do
  let state ← inspect live.key
  match state with
  | .error _ => .fail "reading its container"
  | .ok (some status) =>
      if status = .running then
        if live.lease.phase = .running then pure live
        else do
          let live :=
            { live with
              lease := { live.lease with phase := .running, startedAt := live.lease.startedAt.orElse fun _ => some now } }
          does (.save live.lease)
          pure live
      else if status.ended then do
        let live := { live with lease := { live.lease with phase := .finishing } }
        does (.save live.lease)
        pure live
      else beginEnding live (.lost ("its container was " ++ status.text ++ " when the dispatcher came back"))
  | .ok none =>
      if live.lease.phase = .preparing then pure live
      else
        beginEnding live
          (.lost "its container is gone: the engine lost it (a reboot or an engine restart)")

def readoptLive (live : Live) (now : Nat) : Prog Live :=
  if live.lease.ending.isSome then pure live
  else if live.isJob then readoptJob live
  else readoptTask live now

def readoptLease (lease : Lease) (now : Nat) : Prog Unit := do
  let live ← readoptLive (Live.new lease) now
  does (.putBack live)

def readoptAll (now : Nat) : List Lease → Prog Unit
  | [] => pure ()
  | lease :: rest => do
      readoptLease lease now
      readoptAll now rest

def discardAll : List Key → Prog Unit
  | [] => pure ()
  | k :: rest => do
      does (.removeName k .task)
      does (.discard k)
      discardAll rest

/-- Re-adopts what a previous dispatcher left. -/
def readopt : Prog Unit := do
  let files ← look fun h => h.files
  discardAll ((files.filter fun file => file.2.isNone).map Prod.fst)
  let leases := files.filterMap Prod.snd
  let swept ← sweep (leases.map Lease.key)
  match swept with
  | some e => .fail e
  | none => do
      let now ← look fun h => h.clock
      readoptAll now leases

/-- The dispatcher: re-adopts until it works, then ticks. -/
def dispatcher (cfg : Config) : Machine Host Deed String Event where
  boot := readopt
  turn := tick cfg
  die := Host.die
  happen := Event.happen

end OmarchyPool.Dispatch
