/-
# OmarchyPool.Agent.Orders -- the host orders, each taken once

The pool's orders wait in a queue.  The loop takes them in order: an id in the ring is passed
over, an order that does not read, is unknown or has expired is refused at once, and the rest
go through the brake one at a time (`takeEach`).  Every order that is answered, whatever the
answer, enters the ring of the last `seenRing` ids; so does an Update.
-/
import OmarchyPool.Agent.Process
import OmarchyPool.Lib.Ring

namespace OmarchyPool.Agent

open OmarchyPool.Lib

set_option autoImplicit false

/-- How many order ids the agent remembers. -/
@[irreducible] def seenRing : Nat := 512
/-- A `retire-legacy` not done within this fails. -/
def retireLimitS : Int := 30 * 60

/-- Remembers `id`; the oldest leaves past `seenRing`. -/
def Orders.remember (orders : Orders) (id : OrderId) : Orders :=
  { orders with seen := Ring.push seenRing id orders.seen }

def remember (p : Process) (id : OrderId) : Process :=
  p.setState { p.state with orders := p.state.orders.remember id }

/-- Answers an order: remembered, whatever the answer says. -/
def answer (p : Process) (id : OrderId) : Process := remember p id

def recordAsks (p : Process) (now : Int) (asks : List Ask) : Process :=
  p.setState { p.state with brake := p.state.brake.record now asks }

/-- Counts `asks`, one of which is a restart of the dispatcher. -/
def recordRestart (p : Process) (now : Int) (asks : List Ask) : Process :=
  (recordAsks p now asks).did (.restarted now)

/-- Lifts every quarantine. -/
def liftQuarantine (p : Process) : Process := p.setState { p.state with quarantine := [] }

/-! ## What the orders do -/

inductive Narrow where
  | units (units : Option Nat)
  | emulate (lanes : Option (List String))

/-- The settings with one of them replaced, when the envelope takes it. -/
def narrowed (w : World) (old : Settings) : Narrow → Option Settings
  | .units units => if w.checkUnits units then some { old with units := units } else none
  | .emulate lanes => (w.checkEmulate lanes).map fun lanes => { old with emulate := lanes }

/-- A settings order: counted as a narrowing and a restart when it changed the host. -/
def narrowTo (w : World) (p : Process) (n : Narrow) : Process :=
  match narrowed w (p.state.settings.getD ⟨none, none⟩) n with
  | none => p
  | some new =>
      match w.apply new with
      | .error _ | .ok none => p
      | .ok (some changed) =>
          let p := p.setState { p.state with settings := some new }
          if changed then recordRestart p w.now [.narrowing, .restart] else p

def rotateToken (w : World) (p : Process) : Process :=
  if w.token then recordRestart p w.now [.restart] else p

def widenEnvelope (w : World) (p : Process) : Process :=
  match w.widens with
  | some true => recordRestart p w.now [.restart]
  | some false | none => p

/-- Takes a `retire-legacy`: it goes on across ticks from here, or nothing was changed. -/
def beginRetire (w : World) (p : Process) (order : OrderId) : Option Process :=
  if p.state.orders.retire.isSome then none
  else if w.marks then
    some (p.setState { p.state with
      orders := { p.state.orders with retire := some ⟨order, w.now, .stop⟩ } })
  else none

/-- Carries out one order the brake let through; the id, when it asks for a round. -/
def take (w : World) (o : Order) (p : Process) : Process × List OrderId :=
  let p := p.did (.carried o w.now)
  match o.kind with
  | .reconcileNow => (remember p o.id, [o.id])
  | .retireLegacy =>
      match beginRetire w p o.id with
      | some p => (remember p o.id, [])
      | none => (answer p o.id, [])
  | .retryRelease => (liftQuarantine (remember p o.id), [o.id])
  | .setUnits (.set n) => (answer (narrowTo w p (.units (some n))) o.id, [])
  | .setUnits _ => (answer (narrowTo w p (.units none)) o.id, [])
  | .setEmulate (.set lanes) => (answer (narrowTo w p (.emulate (some lanes))) o.id, [])
  | .setEmulate _ => (answer (narrowTo w p (.emulate none)) o.id, [])
  | .rotateToken => (answer (rotateToken w p) o.id, [])
  | .diagnostics => (answer p o.id, [])
  | .widenEnvelope true => (answer (widenEnvelope w p) o.id, [])
  | .setAgentKeys true => (answer p o.id, [])
  | .widenEnvelope false | .setAgentKeys false | .unknown _ => (p, [])

/-! ## The queue -/

/-- Whether an order is refused at once: unknown, with no time, expired, or unreadable. -/
def refusedAtOnce (o : Order) (now : Int) : Bool :=
  match o.kind, o.notAfter with
  | .unknown _, _ => true
  | _, none => true
  | kind, some t =>
      if t ≤ now then true
      else
        match kind with
        | .setUnits .malformed | .setEmulate .malformed => true
        | .widenEnvelope false | .setAgentKeys false => true
        | _ => false

/-- What an order asks of the brake besides being taken. -/
def asksOf : OrderKind → List Ask
  | .setUnits _ | .setEmulate _ => [.narrowing, .restart]
  | .rotateToken | .retryRelease | .widenEnvelope _ => [.restart]
  | _ => []

/-- An order that would lift a quarantine gives that release a round. -/
def restartsOf (p : Process) (kind : OrderKind) : Nat :=
  if kind = .retryRelease ∧ p.state.quarantine ≠ [] then roundRestarts else 1

def startsRound (kind : OrderKind) : Bool := kind = .reconcileNow || kind = .retryRelease

/-- The queued orders, in order; what the brake paces stays queued. -/
def takeEach (w : World) (busy : Bool) : List Order → Process → Process × List OrderId
  | [], p => ({ p with queue := [] }, [])
  | o :: rest, p =>
      if p.state.orders.retire.any (fun r => r.order = o.id) then takeEach w busy rest p
      else if o.id ∈ p.state.orders.seen then takeEach w busy rest p
      else if refusedAtOnce o w.now then takeEach w busy rest (answer p o.id)
      else if busy && startsRound o.kind then takeEach w busy rest p
      else if !p.state.brake.paced w.now then ({ p with queue := o :: rest }, [])
      else
        let p := p.setState { p.state with brake := p.state.brake.considered w.now }
        match p.state.brake.checkRoom w.now (.order :: asksOf o.kind) (restartsOf p o.kind) with
        | .error _ => takeEach w busy rest (answer p o.id)
        | .ok () =>
            let (p, round) := take w o (recordAsks p w.now [.order])
            let (p, rounds) := takeEach w busy rest p
            (p, round ++ rounds)

def takeOrders (w : World) (busy : Bool) (p : Process) : Process × List OrderId :=
  takeEach w busy p.queue p

/-! ## The settings the pool keeps, the Updates, the retirement in flight -/

/-- The settings the pool keeps (without what names no setting), taken through the brake when the
agent has none of its own. -/
def restoreSettings (w : World) (p : Process) (kept : Option Settings) : Process :=
  match kept with
  | none => p
  | some want =>
      if p.state.settings.isSome then p
      else
        match p.state.brake.check w.now [.narrowing, .restart] with
        | .error _ => p
        | .ok () =>
            match w.apply want with
            | .error _ => p
            | .ok changed =>
                let p := if changed = some true then
                    recordRestart p w.now [.narrowing, .restart] else p
                p.setState { p.state with settings := some want }

/-- The first Update not taken yet; without the room for its round it waits, unconsumed. -/
def takeUpdate (w : World) (busy : Bool) (updates : List OrderId) (p : Process) :
    Process × Option String :=
  match updates.find? fun id =>
      !busy && id ∉ p.state.orders.seen && decide (p.state.updateSeen ≠ some id) with
  | none => (p, none)
  | some id =>
      let room := if p.state.quarantine = [] then .ok ()
        else p.state.brake.checkRoom w.now [.restart] roundRestarts
      match room with
      | .error _ => (p, none)
      | .ok () =>
          let p := remember (liftQuarantine p) id
          (p.setState { p.state with updateSeen := some id }, some ("Update order " ++ id))

/-- One step of the `retire-legacy` in flight, if any. -/
def retireStep (w : World) (p : Process) : Process :=
  match p.state.orders.retire with
  | none => p
  | some r =>
      let ended := p.setState { p.state with orders := { p.state.orders with retire := none } }
      if w.now - r.since > retireLimitS then answer ended r.order
      else if w.retired then
        match r.step with
        | .stop => p.setState { p.state with
            orders := { p.state.orders with retire := some { r with step := .remove } } }
        | .remove => answer ended r.order
      else p

end OmarchyPool.Agent
