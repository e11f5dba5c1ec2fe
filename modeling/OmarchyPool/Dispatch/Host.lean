/-
# OmarchyPool.Dispatch.Host -- what the dispatcher acts on

A host is the dispatcher's memory, what it keeps on disk (the lease files, the day's ledger, the
task directories), the engine's containers, and everything that answers it from outside.  `Deed` is
what one statement of the dispatcher does: a change of its memory, one file operation, one engine
call, one report to the pool; `Deed.effect` is what that changes.  `Event` is what happens beside
it: answers change, time passes, containers end, an agent sidecar makes a model call.

A container is its lease's by its key and its role, as its name and its labels say.  Two parts of a
host are only there to be spoken of: `takes`, `runs`, `reports` and `calls` are what has been done
so far, and a `Usage` counts what its sidecar made of the day and whether the ledger has it.
-/
import Mathlib.Data.List.Sort
import OmarchyPool.Dispatch.Lease
import OmarchyPool.Lib.OrderedMap

namespace OmarchyPool.Dispatch

open OmarchyPool.Lib

set_option autoImplicit false

/-- A lease and what the process keeps beside its file. -/
structure Live where
  lease : Lease
  prep : Bool
  fin : Bool
  child : Bool
  retryAt : Nat
  beatAt : Nat
  deriving DecidableEq, Repr

namespace Live

def new (lease : Lease) : Live := ⟨lease, false, false, false, 0, 0⟩

def key (live : Live) : Key := live.lease.key

def isJob (live : Live) : Bool := live.lease.isJob

/-- The table's order: by task, then by generation. -/
def Before (a b : Live) : Prop := a.key.1 < b.key.1 ∨ a.key.1 = b.key.1 ∧ a.key.2 ≤ b.key.2

instance : DecidableRel Before := fun a b =>
  inferInstanceAs (Decidable (a.key.1 < b.key.1 ∨ a.key.1 = b.key.1 ∧ a.key.2 ≤ b.key.2))

end Live

/-! ## The engine -/

inductive Status where
  | running
  | exited
  | stopped
  | created
  | configured
  | initialized
  | other (text : String)
  deriving DecidableEq, Repr

namespace Status

/-- `State::exited`. -/
def ended : Status → Bool
  | .exited => true
  | .stopped => true
  | _ => false

def starting : Status → Bool
  | .created => true
  | .configured => true
  | .initialized => true
  | _ => false

def text : Status → String
  | .running => "running"
  | .exited => "exited"
  | .stopped => "stopped"
  | .created => "created"
  | .configured => "configured"
  | .initialized => "initialized"
  | .other said => said

end Status

structure Container where
  key : Key
  role : Role
  status : Status
  /-- The calls an agent sidecar may make. -/
  calls : Nat
  deriving DecidableEq, Repr

/-- How an engine call ends: done, refused, or done with an error for an answer. -/
inductive Ran where
  | ok
  | failed
  | failedDone
  deriving DecidableEq, Repr

/-- An agent sidecar's spend: `usage.json` says what it made; what it made of the day, and
whether the ledger has it, is kept beside. -/
structure Usage where
  made : Nat
  today : Nat
  counted : Bool
  deriving DecidableEq, Repr

def Usage.midnight (u : Usage) : Usage := { u with today := 0 }

/-! ## The pool and the threads -/

/-- A task as a host's claim answer carries it. -/
structure HostTask where
  task : Task
  leaseGen : Option String
  lane : Option String
  units : Option Nat
  diskGb : Option Nat
  release : Option String
  deriving DecidableEq, Repr

inductive Answer where
  | nothing
  | task (handed : HostTask)
  | orders (recheck : Bool)
  | badTask (id : Nat)
  | unreadable
  | updateRequired (recheck : Bool)
  | refused
  | lost
  deriving DecidableEq, Repr

inductive Beat where
  | accepted
  | stop (state : String)
  | nothing
  deriving DecidableEq, Repr

inductive Prep where
  | retry (why : String)
  | fail (error : String)
  deriving DecidableEq, Repr

/-- A thread of its own. -/
inductive Thread (α : Type) where
  | busy
  | done (result : α)
  | panicked
  deriving DecidableEq, Repr

inductive Wait where
  | busy
  | ended
  | unreadable
  deriving DecidableEq, Repr

/-- What the pool is told of a lease. -/
inductive Report where
  | ended (key : Key) (ending : Ending)
  | failed (key : Key) (error : String)
  | finished (key : Key) (lost : Bool)
  | refused (id : Nat) (error : String) (lost final : Bool)
  deriving DecidableEq, Repr

/-- Everything that answers the dispatcher, as it would answer now. -/
structure Outside where
  terminating : Bool
  /-- The tick still calls the pool. -/
  poolTime : Bool
  capacity : Option Capacity
  workFreeGb : Option Nat
  memAvailableGb : Option Nat
  sandboxHeld : Bool
  revoked : List String
  inspects : Bool
  lists : Bool
  networks : Bool
  bridge : Bool
  removes : Bool
  ran : Ran
  becomes : Status
  beat : Beat
  claim : Answer
  wait : Nat
  prepared : Thread (Except Prep Unit)
  /-- The finish's report, and whether it said `lost`. -/
  finished : Thread (Except String Bool)
  /-- Whether the probe ran, and whether the agent answered it. -/
  probed : Thread (Bool × Bool)
  child : Wait
  spawns : Option String
  result : Bool
  direct : Except String Bool
  caches : Option String
  writable : Option String
  usageDir : Option String
  jobFiles : Option String
  planned : Option String
  /-- `usage.json` reads. -/
  usage : Bool
  probeGen : String

/-- What the loop remembers from tick to tick. -/
structure Memo where
  nextClaim : Nat
  probeAt : Nat
  probing : Bool
  probeFailures : Nat
  diskLow : Bool
  killedAt : Option String
  deriving DecidableEq, Repr

structure Host where
  leases : List Live
  /-- The lease `tick` took out of the table to step it. -/
  hand : Option Key
  /-- The /28 and the generation the probe holds. -/
  holds : Option (Nat × String)
  memo : Memo
  files : OrderedMap Key (Option Lease)
  ledger : Option Day
  usage : OrderedMap Key Usage
  containers : List Container
  clock : Nat
  outside : Outside
  takes : List Key
  runs : List Key
  reports : List Report
  calls : List Nat

namespace Host

def liveOf (h : Host) (k : Key) : Option Live := h.leases.find? fun live => live.key = k

def fileOf (h : Host) (k : Key) : Option (Option Lease) := h.files.get k

def container? (h : Host) (k : Key) (role : Role) : Option Container :=
  h.containers.find? fun c => c.key = k ∧ c.role = role

def taskStatus (h : Host) (k : Key) : Option Status := (h.container? k .task).map Container.status

/-- The slots of the leases in the table and of the probe. -/
def slotsUsed (h : Host) : List Nat :=
  (h.leases.filterMap fun live => live.lease.netSlot) ++ (h.holds.map Prod.fst).toList

/-- The calls set aside for the sidecars of the leases in the table. -/
def reserved (h : Host) : Nat := (h.leases.filterMap fun live => live.lease.agentCalls).sum

/-- The calls an ended sidecar made, its whole cap where that does not read. -/
def used (h : Host) (k : Key) (cap : Nat) : Nat :=
  if h.outside.usage then
    match h.usage.get k with
    | some u => min u.made cap
    | none => cap
  else cap

def callsOn (h : Host) (day : Nat) : Nat := h.calls.countP fun time => dayOf time = day

/-- What a death leaves: the memory starts again. -/
def die (h : Host) : Host :=
  { h with leases := [], hand := none, holds := none, memo := ⟨0, 0, false, 0, false, none⟩ }

/-! ## The engine's calls -/

/-- Whether the engine can do the call: a name is not in use, a sidecar to start is there. -/
def possible (h : Host) (k : Key) : Call → Bool
  | .network => true
  | .connect => true
  | .create role _ => (h.container? k role).isNone
  | .start role => (h.container? k role).isSome
  | .run => (h.container? k .task).isNone

/-- A sidecar starts once it is created. -/
def startOne (k : Key) (role : Role) (c : Container) : Container :=
  if c.key = k ∧ c.role = role ∧ c.status = .created then { c with status := .running } else c

def called (h : Host) (k : Key) : Call → Host
  | .network => h
  | .connect => h
  | .create role calls => { h with containers := h.containers ++ [⟨k, role, .created, calls⟩] }
  | .start .agent =>
      { h with
        containers := h.containers.map (startOne k .agent)
        usage := if h.containers.any fun c => c.key = k ∧ c.role = .agent ∧ c.status = .created then
            h.usage.set k ⟨0, 0, false⟩
          else h.usage }
  | .start role => { h with containers := h.containers.map (startOne k role) }
  | .run =>
      { h with
        containers := h.containers ++ [⟨k, .task, h.outside.becomes, 0⟩]
        runs := k :: h.runs }

/-- The call is done: with or without the engine saying so. -/
def takesEffect (h : Host) (k : Key) (c : Call) : Bool := h.outside.ran ≠ .failed && h.possible k c

def answersOk (h : Host) (k : Key) (c : Call) : Bool := h.outside.ran = .ok && h.possible k c

end Host

/-! ## The deeds -/

/-- What one statement of the dispatcher does. -/
inductive Deed where
  | look
  /-- Reads the ledger and the calls set aside, as of `now`. -/
  | grant (now : Nat)
  | takeOut (k : Key)
  | putBack (live : Live)
  | letGo (k : Key)
  | hold (slot : Nat) (gen : String)
  | unhold
  | remember (memo : Memo)
  | take (l : Lease)
  | save (l : Lease)
  | unlink (k : Key)
  | discard (k : Key)
  | add (now calls : Nat)
  | count (k : Key) (cap : Nat)
  | clearDir (k : Key)
  | removeLease (k : Key)
  | removeName (k : Key) (role : Role)
  | call (k : Key) (c : Call)
  | report (r : Report)

namespace Deed

def effect : Deed → Host → Host
  | .look, h => h
  | .grant _, h => h
  | .takeOut k, h => { h with leases := h.leases.filter fun live => live.key ≠ k, hand := some k }
  | .putBack live, h =>
      { h with
        leases := (h.leases.filter fun other => other.key ≠ live.key).orderedInsert Live.Before live
        hand := none }
  | .letGo _, h => { h with hand := none }
  | .hold slot gen, h => { h with holds := some (slot, gen) }
  | .unhold, h => { h with holds := none }
  | .remember memo, h => { h with memo := memo }
  | .take l, h => { h with files := h.files.set l.key (some l), hand := some l.key, takes := l.key :: h.takes }
  | .save l, h => { h with files := h.files.set l.key (some l) }
  | .unlink k, h => { h with files := h.files.delete k }
  | .discard k, h => { h with files := h.files.delete k }
  | .add now calls, h => { h with ledger := some (Day.add h.ledger now calls) }
  | .count k cap, h =>
      { h with
        ledger := some (Day.add h.ledger h.clock (h.used k cap))
        usage := match h.usage.get k with
          | some u => h.usage.set k { u with counted := true }
          | none => h.usage }
  | .clearDir k, h => { h with usage := h.usage.delete k }
  | .removeLease k, h =>
      if h.outside.removes then { h with containers := h.containers.filter fun c => c.key ≠ k } else h
  | .removeName k role, h =>
      if h.outside.removes then
        { h with containers := h.containers.filter fun c => ¬ (c.key = k ∧ c.role = role) }
      else h
  | .call k c, h => if h.takesEffect k c then h.called k c else h
  | .report r, h => { h with reports := r :: h.reports }

end Deed

/-! ## The events -/

inductive Event where
  | answers (outside : Outside)
  | passes (seconds : Nat)
  | becomes (k : Key) (role : Role) (status : Status)
  | vanishes (k : Key) (role : Role)
  | modelCall (k : Key)

namespace Event

/-- A container changes on its own: an ended one stays so, and only a task container that is on
its way starts without a call. -/
def settle (k : Key) (role : Role) (status : Status) (c : Container) : Container :=
  if c.key = k ∧ c.role = role ∧ c.status.ended = false ∧
      (status = .running → c.status = .running ∨ c.role = .task) then
    { c with status := status }
  else c

/-- A running agent sidecar of this lease below its cap. -/
def mayCall (h : Host) (k : Key) (u : Usage) : Bool :=
  h.containers.any fun c => c.key = k ∧ c.role = .agent ∧ c.status = .running ∧ u.made < c.calls

def happen : Event → Host → Host
  | .answers outside, h => { h with outside := outside }
  | .passes seconds, h =>
      { h with
        clock := h.clock + seconds
        usage := if dayOf (h.clock + seconds) = dayOf h.clock then h.usage
          else h.usage.map fun entry => (entry.1, entry.2.midnight) }
  | .becomes k role status, h => { h with containers := h.containers.map (settle k role status) }
  | .vanishes k role, h =>
      { h with containers := h.containers.filter fun c => ¬ (c.key = k ∧ c.role = role) }
  | .modelCall k, h =>
      match h.usage.get k with
      | some u =>
          if mayCall h k u then
            { h with
              usage := h.usage.set k { u with made := u.made + 1, today := u.today + 1 }
              calls := h.clock :: h.calls }
          else h
      | none => h

end Event

end OmarchyPool.Dispatch
