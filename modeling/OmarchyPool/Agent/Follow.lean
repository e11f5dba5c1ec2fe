/-
# OmarchyPool.Agent.Follow -- the release the pool names

A poll names a release.  If it is not the one that runs, its bundle is fetched and verified,
its `minRelease` and `revoked` are merged, and the trust rules decide: at or above the floor,
or below it under a rollback statement that is accepted there and then.  Then the owner's
soak, the agent's own update, the tools, the brake, and a round starts.  A round to the release
that runs starts with none of these but the trust rules.
-/
import OmarchyPool.Agent.Orders

namespace OmarchyPool.Agent

open OmarchyPool.Lib

set_option autoImplicit false

def maxBehindS : Int := 100 * 60

/-! ## The owner's soak -/

/-- The soak's clock as the pool names `target`: it starts when the pool first names a release
above the one that runs, and again for each newer one. -/
def noteSoak (cfg : Config) (state : State) (target : Release) (now : Int) : State :=
  match state.applied.filter fun applied => cfg.soakMinutes > 0 && decide (target > applied) with
  | none => { state with soak := none }
  | some applied =>
      let s := state.soak.getD ⟨target, now, applied, now, now⟩
      let s := if s.release ≠ target then { s with release := target, seen := now } else s
      let s := if s.fromRelease ≠ applied then
          { s with fromRelease := applied, behindSince := s.seen } else s
      { state with soak := some { s with
          untilTime := min (s.seen + cfg.soakMinutes * 60) (s.behindSince + maxBehindS) } }

/-- Whether the owner's soak holds `target` now. -/
def soaking (cfg : Config) (state : State) (target : Release) (now : Int) : Bool :=
  cfg.soakMinutes ≠ 0 && state.soak.any fun s => s.release = target && decide (now < s.untilTime)

/-! ## The bundle, its co-signatures, a statement -/

inductive Fetched where
  | bundle (bundle : Bundle) (found : Cosignatures)
  | newerAgent (agent : Version) (urgent : Bool) (found : Cosignatures)
  | stop

/-- The bundle kept for a release, if it is that release's. -/
def cachedArchive (w : World) (target : Release) : Option BundleOutcome :=
  (w.kept target).filter fun outcome => outcome.release = target

/-- GitHub's bundle of the release asked for. -/
def download (w : World) (target : Release) : Option BundleOutcome :=
  match w.asset target with
  | .ok (.ok outcome) => if outcome.release = target then some outcome else none
  | .ok (.error _) | .noAnswer | .unauthorized => none

/-- No co-signature is looked for when none is required, and GitHub's silence counts only while
they fall short. -/
def cosignatures (cfg : Config) (w : World) (target : Release) : Cosignatures :=
  if cfg.policy.threshold = 0 then ⟨⟨[]⟩, false⟩
  else
    let found := w.cosignatures target
    ⟨found.cosigned,
      found.unanswered && decide (found.cosigned.count < cfg.policy.threshold)⟩

def fetch (cfg : Config) (w : World) (target : Release) : Fetched :=
  match (cachedArchive w target).or (download w target) with
  | none => .stop
  | some (.current bundle) => .bundle bundle (cosignatures cfg w target)
  | some (.needsNewerAgent _ agent urgent) =>
      .newerAgent agent urgent (cosignatures cfg w target)

/-- What the pool relays for going down to `target`, admitted; `none` when there is no decision
now or it was refused. -/
def statement (cfg : Config) (w : World) (state : State) (target : Release) (b : Bundle) :
    Option (Statement × Cosigned) :=
  match w.relay target with
  | .ok (some relayed) =>
      match relayed.verified with
      | .ok (.current st signedAt) =>
          match admitRollback state target st signedAt b.manifest.created relayed.cosigned.count
              cfg.policy.deepRollback with
          | .ok () => some (st, relayed.cosigned)
          | .error _ => none
      | .ok .needsNewerAgent | .error _ => none
  | .ok none | .noAnswer | .unauthorized => none

/-- The upward rule: a bundle shipping a higher agent than this one updates it. -/
def upgrade (cfg : Config) (w : World) (ships : Version) : Bool := decide (ships > cfg.version) && w.swaps

/-- Records an admitted rollback statement: the floor goes to its `to`. -/
def accept (p : Process) (st : Statement) (found : Cosigned) (vouches : Bool) : Process :=
  let p := p.did (.accepted p.state st found.count)
  p.setState (acceptRollback p.state st vouches)

/-- Whether the agent must move down first, and could not. -/
def heldByAgent (cfg : Config) (w : World) (st : Statement) (b : Bundle) : Bool :=
  match st.agentTo.filter fun down => down < cfg.version with
  | none => false
  | some down => !(b.manifest.agent = down && w.swaps)

def movesDown (cfg : Config) (st : Statement) : Bool :=
  (st.agentTo.filter fun down => down < cfg.version).isSome

/-- A target below the floor: the process once the statement is accepted, with the agent that
moved down on its way out; `none` when it is not accepted now. -/
def rollBack (cfg : Config) (w : World) (p : Process) (target : Release) (b : Bundle)
    (found : Cosignatures) : Option Process :=
  match statement cfg w p.state target b with
  | none => none
  | some (st, stFound) =>
      let need := cfg.policy.threshold
      if stFound.count < need && found.unanswered then none
      else
        match cosigned need found.cosigned (some stFound) with
        | .error _ => none
        | .ok () =>
            if heldByAgent cfg w st b then none
            else
              let p := if movesDown cfg st then { p with exit := true } else p
              some (accept p st stFound (decide (found.cosigned.count < need)))

/-! ## A new target -/

/-- Starts (or preempts) a round. -/
def beginRound (p : Process) (now : Int) (target : Release) (rollback braked : Bool) (found : Nat)
    (why : String) : Process :=
  let state := start p.state now target rollback why
  let state := { state with rollout := { state.rollout with braked := braked } }
  (p.setState state).did (.started state found)

/-- A release change, counted before its round starts. -/
def countChange (p : Process) (now : Int) (target : Release) : Process :=
  let p := recordAsks p now [.release]
  let p := p.setState { p.state with brake := { p.state.brake with lastRelease := some target } }
  p.did (.changed target now)

/-- The agent of a bundle only a higher agent reads. -/
def needsNewerAgent (cfg : Config) (w : World) (p : Process) (target : Release) (agent : Version)
    (urgent : Bool) (found : Cosignatures) : Process :=
  match admits p.state target with
  | .error _ => say p w.now .refused
  | .ok () =>
      if found.unanswered then say p w.now .poolUnreachable
      else
        match cosigned cfg.policy.threshold found.cosigned none with
        | .error _ => say p w.now .refused
        | .ok () =>
            if soaking cfg p.state target w.now && !urgent then say p w.now .held
            else if upgrade cfg w agent then { p with exit := true }
            else say p w.now .needsNewerAgent

/-- The round once its target is admitted: the soak, the agent, the tools, the brake. -/
def goOn (cfg : Config) (w : World) (p : Process) (target : Release) (b : Bundle)
    (found : Cosignatures) (rollback : Bool) (why : String) : Process :=
  let soak := !rollback && soaking cfg p.state target w.now
  if (!soak || b.manifest.urgent) && upgrade cfg w b.manifest.agent then { p with exit := true }
  else if soak then say p w.now .held
  else if !w.tools then say p w.now .engineUnreachable
  else
    match b.files with
    | none => say p w.now .refused
    | some files =>
        let braked := !rollback && p.state.applied.any fun applied => applied ≠ target
        let pending : Target := ⟨b.manifest.release, files⟩
        let begun (p : Process) : Process :=
          { beginRound p w.now target rollback braked found.cosigned.count why with
            pending := some pending }
        if braked then
          -- The release the last change went to: that change tried again.
          let again := decide (p.state.brake.lastRelease = some target)
          match p.state.brake.checkRoom w.now (if again then [.restart] else [.release, .restart])
              roundRestarts with
          | .error _ => say p w.now .held
          | .ok () => if again then begun p else begun (countChange p w.now target)
        else begun p

/-- The bundle's values, merged when it carries the co-signatures this agent requires. -/
def learn (cfg : Config) (p : Process) (b : Bundle) (found : Cosignatures) : Process :=
  if found.cosigned.count ≥ cfg.policy.threshold then p.setState (merge p.state b.manifest) else p

/-- A new target: its bundle verified, the trust rules and the co-signatures, then a round.  The
pool's origins are compared without a slash at their end. -/
def goTo (cfg : Config) (w : World) (p : Process) (target : Release) (why : String) : Process :=
  match fetch cfg w target with
  | .stop => say p w.now .poolUnreachable
  | .newerAgent agent urgent found => needsNewerAgent cfg w p target agent urgent found
  | .bundle b found =>
      let p := learn cfg p b found
      if cfg.pool ∉ b.manifest.pools then say p w.now .refused
      else
        match admits p.state target with
        | .ok () =>
            if vouched p.state target then goOn cfg w p target b found false why
            else if found.unanswered then say p w.now .poolUnreachable
            else
              match cosigned cfg.policy.threshold found.cosigned none with
              | .error _ => say p w.now .refused
              | .ok () => goOn cfg w p target b found false why
        | .error (.belowFloor _ _) =>
            match rollBack cfg w p target b found with
            | none => say p w.now .refused
            | some p => if p.exit then p else goOn cfg w p target b found true why
        | .error _ => say p w.now .refused

/-! ## Following the pool -/

/-- The applied release's higher agent, tried again. -/
def agentAgain (cfg : Config) (w : World) (state : State) (applied : Release) : Bool :=
  match admits state applied with
  | .error _ => false
  | .ok () =>
      match cachedArchive w applied with
      | some (.current b) =>
          decide (cfg.policy.threshold ≤ (cosignatures cfg w applied).cosigned.count) &&
            upgrade cfg w b.manifest.agent
      | some (.needsNewerAgent _ _ _) | none => false

def belowFloor (state : State) (target : Release) : Bool :=
  match admits state target with
  | .error (.belowFloor _ _) => true
  | _ => false

/-- The target of the round in flight. -/
def inFlight (state : State) : Option Release :=
  if state.rollout.step = .idle then none else state.rollout.target

/-- A round to it, preempting one in flight when it may, or a round to the release that runs when
`force` says why. -/
def followTarget (cfg : Config) (w : World) (p : Process) (target : Option Release)
    (force : Option String) : Process :=
  match target with
  | none => p
  | some target =>
      let p := p.setState (noteSoak cfg { p.state with target := some target } target w.now)
      let flight := inFlight p.state
      if flight = some target || (flight.isSome && !preemptible p.state.rollout.step) then p
      -- Only a newer release or a rollback statement preempts.
      else if flight.any (fun cur => decide (target < cur)) && !belowFloor p.state target then p
      else if flight = none ∧ p.state.applied = some target ∧
          agentAgain cfg w p.state target = true then { p with exit := true }
      else if flight = none ∧ p.state.applied = some target ∧ force = none then p
      else if p.state.applied = some target ∧ (fileIn p.disk.lastGood pinsPath).isSome then
        match admits p.state target with
        | .ok () => beginRound p w.now target false false 0 (force.getD "the pool names it")
        | .error _ => say p w.now .refused
      else if quarantined p.state target w.now then say p w.now .held
      else goTo cfg w p target (force.getD "the pool names it")

end OmarchyPool.Agent
