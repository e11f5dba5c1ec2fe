/-
# OmarchyPool.Agent.Process -- the agent's process, and what the world answers it

`Process` is the agent between two ticks: the state it holds, the state `state.json` holds, the
two rendered directories, and what it only keeps in memory.  `World` is everything the pool,
GitHub, the engine and the host answer during one tick; a tick asks each of them at most once,
so an answer is a function of what was asked.
-/
import OmarchyPool.Agent.Rollout

namespace OmarchyPool.Agent

open OmarchyPool.Lib

set_option autoImplicit false

inductive Net (α : Type) where
  | ok (value : α)
  | noAnswer
  | unauthorized

/-- At most this many host orders and Update ids are read from one answer. -/
def maxOrders : Nat := 32

theorem one_le_maxOrders : 1 ≤ maxOrders := by decide

/-- The host state the pool answers a poll with, as the agent reads it. -/
structure HostState where
  target : Option Release
  updates : List OrderId
  orders : List Order
  settings : Option Settings
  updates_le : updates.length ≤ maxOrders
  orders_le : orders.length ≤ maxOrders

/-- A verified bundle: its manifest, and the set's files when it carries the set. -/
structure Bundle where
  manifest : Manifest
  files : Option SetFiles

/-- A bundle whose signature held: one this agent reads, or one only a higher agent reads. -/
inductive BundleOutcome where
  | current (bundle : Bundle)
  | needsNewerAgent (release : Release) (agent : Version) (urgent : Bool)

def BundleOutcome.release : BundleOutcome → Release
  | .current bundle => bundle.manifest.release
  | .needsNewerAgent release _ _ => release

/-- A bundle's co-signatures as far as GitHub answered. -/
structure Cosignatures where
  cosigned : Cosigned
  /-- They fall short, and GitHub did not answer for one that could still count. -/
  unanswered : Bool

inductive StatementOutcome where
  | current (st : Statement) (signedAt : Int)
  | needsNewerAgent

/-- A rollback statement as the pool relays it, as the verifier reads it. -/
structure Relayed where
  verified : Except String StatementOutcome
  cosigned : Cosigned

/-- What is answered during one tick. -/
structure World extends Host where
  /-- A person asked for a round. -/
  roundNow : Bool
  /-- A poll is due. -/
  due : Bool
  answer : Net HostState
  /-- The bundle kept for a release, when the verifier still takes it. -/
  kept : Release → Option BundleOutcome
  /-- GitHub's bundle of a release, as the verifier reads it. -/
  asset : Release → Net (Except String BundleOutcome)
  cosignatures : Release → Cosignatures
  relay : Release → Net (Option Relayed)
  /-- The pinned tools of a verified manifest are installed. -/
  tools : Bool
  /-- A higher (or, under a statement, lower) agent was downloaded, tested and swapped in. -/
  swaps : Bool
  /-- Whether the envelope takes this many units. -/
  checkUnits : Option Nat → Bool
  /-- The lanes the envelope takes of these. -/
  checkEmulate : Option (List String) → Option (Option (List String))
  /-- Whether applying settings changed `run/capacity.json`; nothing when there is none. -/
  apply : Settings → Except String (Option Bool)
  /-- The pool gave a token for this host's registration and it was written. -/
  token : Bool
  /-- The legacy project's record was read and its marker written. -/
  marks : Bool
  /-- The engine's answers end the step of the retirement in flight. -/
  retired : Bool
  /-- The owner's passkey signed this widening, and whether it changed the envelope. -/
  widens : Option Bool

structure Process where
  state : State
  /-- `state.json`. -/
  saved : State
  disk : Disk
  /-- The verified target of the round in flight. -/
  pending : Option Target
  /-- The host orders of the last host state not taken yet. -/
  queue : List Order
  /-- The agent exits after this tick: a self-update swapped it. -/
  exit : Bool
  lastDrift : Int
  lastInputs : Option String
  deeds : List Deed

/-- The process on a host that was just installed. -/
def Process.fresh : Process where
  state := .fresh
  saved := .fresh
  disk := ⟨none, none, []⟩
  pending := none
  queue := []
  exit := false
  lastDrift := 0
  lastInputs := none
  deeds := []

def Process.did (p : Process) (deed : Deed) : Process := { p with deeds := p.deeds ++ [deed] }

def Process.setState (p : Process) (state : State) : Process := { p with state := state }

/-- Says what a poll found when no round is in flight; a round's own report is kept. -/
def say (p : Process) (now : Int) (outcome : Outcome) : Process :=
  if p.state.rollout.step = .idle then
    p.setState { p.state with round := some ⟨now, outcome, none⟩ }
  else p

end OmarchyPool.Agent
