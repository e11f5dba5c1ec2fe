/-
# OmarchyPool.Agent.State -- what the host's agent keeps in `state.json`

The agent is one process that wakes every few seconds and takes one small step.  What it must
not forget over a restart is one record, `State`: the trust decisions (`floor`, `minRelease`,
`revoked`, `statementSeq`, `vouched`), the release that runs, the round in flight, the orders
taken and the brake's counters.  A release is three numbers compared in turn; a time is a
number of seconds.
-/
import Mathlib.Data.Prod.Lex
import Mathlib.Data.Finset.Basic
import OmarchyPool.Lib.OrderedMap

namespace OmarchyPool.Agent

open OmarchyPool.Lib

set_option autoImplicit false

/-- `X.Y.Z`: compared number by number, the first that differs deciding. -/
abbrev Version := Nat ×ₗ (Nat ×ₗ Nat)

abbrev Release := Version

def vX (major minor patch : Nat) : Release := toLex (major, toLex (minor, patch))

/-- The id of a host order or of an Update. -/
abbrev OrderId := String

/-! ## The round in flight -/

/-- Which files a replace creates from. -/
inductive Files where
  | staging
  | lastGood
  deriving DecidableEq

inductive Phase where
  | stop
  | drain (since : Int)
  | create (since : Int)
  | ready (since : Int)
  deriving DecidableEq

/-- The guard's samples so far. -/
structure Guard where
  started : Int
  container : String
  /-- The container's `RestartCount` when the guard began. -/
  restarts0 : Nat
  /-- Consecutive samples that found it restarting. -/
  streak : Nat
  lastSample : Int
  deriving DecidableEq

inductive Step where
  | idle
  | render
  | lint
  | plan
  | pull
  | replace (files : Files) (phase : Phase)
  | guard (sampled : Guard)
  | commit
  | revert (why : String)
  deriving DecidableEq

structure Rollout where
  step : Step
  since : Int
  target : Option Release
  /-- What ran when the round began. -/
  fromRelease : Option Release
  /-- The round goes down under an accepted rollback statement. -/
  rollback : Bool
  why : String
  /-- The services the plan replaces. -/
  services : List String
  reverting : Option String
  /-- The pool's target started this round toward another release than the one that ran. -/
  braked : Bool
  deriving DecidableEq

/-- No round: what a round that ended at `since` leaves. -/
def Rollout.ended (since : Int) : Rollout where
  step := .idle
  since := since
  target := none
  fromRelease := none
  rollback := false
  why := ""
  services := []
  reverting := none
  braked := false

inductive Outcome where
  | ok
  | noChange
  | held
  | rolledBack
  | refused
  | poolUnreachable
  | unauthorized
  | engineUnreachable
  | needsNewerAgent
  | pullFailed
  deriving DecidableEq

/-- The last round's outcome, as reported. -/
structure Round where
  time : Int
  outcome : Outcome
  fromRelease : Option Release
  deriving DecidableEq

/-- A reverted release: not retried before `untilTime`, or not at all. -/
structure Quarantine where
  untilTime : Option Int
  reverts : Nat
  deriving DecidableEq

/-! ## The orders, the settings, the brake, the soak -/

inductive RetireStep where
  | stop
  | remove
  deriving DecidableEq

/-- A `retire-legacy` in flight. -/
structure Retire where
  order : OrderId
  since : Int
  step : RetireStep
  deriving DecidableEq

/-- The ids taken, oldest first, and the `retire-legacy` in flight. -/
structure Orders where
  seen : List OrderId
  retire : Option Retire
  deriving DecidableEq

/-- An argument of an order: a value, the envelope's own (`null`), or one that does not read. -/
inductive Arg (α : Type) where
  | set (value : α)
  | envelope
  | malformed
  deriving DecidableEq

inductive OrderKind where
  | retireLegacy
  | reconcileNow
  | setUnits (units : Arg Nat)
  | setEmulate (lanes : Arg (List String))
  | rotateToken
  | retryRelease
  | diagnostics
  /-- With a document the owner's passkey signed, or without one. -/
  | widenEnvelope (signed : Bool)
  | setAgentKeys (signed : Bool)
  | unknown (word : String)
  deriving DecidableEq

structure Order where
  id : OrderId
  kind : OrderKind
  notAfter : Option Int
  deriving DecidableEq

structure Settings where
  units : Option Nat
  emulate : Option (List String)
  deriving DecidableEq

/-- The times of what the pool made the host do, by kind. -/
structure Brake where
  orders : List Int
  restarts : List Int
  releases : List Int
  narrowings : List Int
  lastOrder : Option Int
  /-- The release the last counted release change went to. -/
  lastRelease : Option Release
  deriving DecidableEq

/-- The owner's soak of the release the pool names. -/
structure Soak where
  release : Release
  seen : Int
  fromRelease : Release
  behindSince : Int
  untilTime : Int
  deriving DecidableEq

/-! ## The state -/

structure State where
  floor : Option Release
  minRelease : Option Release
  revoked : Finset Release
  statementSeq : Option Nat
  vouched : Option Release
  applied : Option Release
  target : Option Release
  quarantine : OrderedMap Release Quarantine
  updateSeen : Option OrderId
  rollout : Rollout
  round : Option Round
  orders : Orders
  settings : Option Settings
  brake : Brake
  soak : Option Soak
  deriving DecidableEq

def Brake.fresh : Brake := ⟨[], [], [], [], none, none⟩

/-- A host that has no `state.json` yet. -/
def State.fresh : State where
  floor := none
  minRelease := none
  revoked := ∅
  statementSeq := none
  vouched := none
  applied := none
  target := none
  quarantine := []
  updateSeen := none
  rollout := .ended 0
  round := none
  orders := ⟨[], none⟩
  settings := none
  brake := .fresh
  soak := none

end OmarchyPool.Agent
