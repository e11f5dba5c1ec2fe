/-
# OmarchyPool.Dispatch.Lease -- a lease, its share, its lane and its budget

What the dispatcher keeps of a lease (`dispatch/lease.rs`), and the pure functions it decides by:
the grammar of what the pool hands it (`dispatch/spec.rs`), the kinds it runs and the pool's jobs
(`dispatch/kinds.rs`, `dispatch/jobs.rs`), the units a claim may offer (`dispatch/capacity.rs`), the
day's ledger of model calls (`dispatch/budget.rs`) and the engine calls that start a task
(`spec::plan`).

* `offer_le`: memory only ever lowers an offer.
* `grant_le`: a grant leaves the day what is spent and what is set aside.
-/
import Mathlib.Data.List.Basic
import Mathlib.Tactic.Common
import Mathlib.Tactic.Linarith

namespace OmarchyPool.Dispatch

set_option autoImplicit false

/-- A task and the generation of its lease. -/
abbrev Key := Nat × String

inductive Phase where
  | preparing
  | running
  | finishing
  deriving DecidableEq, Repr

/-- Why the dispatcher ends a lease itself. -/
inductive Ending where
  | stopped (state : String)
  | expired
  | lost (why : String)
  | revoked (release : String)
  deriving DecidableEq, Repr

structure Task where
  id : Nat
  kind : String
  name : String
  arch : String
  trust : String
  pkgbuildRef : String
  /-- Its parameters have a `review`. -/
  review : Bool
  /-- Its parameters' `arch`. -/
  named : Option String
  deriving DecidableEq, Repr

structure Lane where
  arch : String
  emulated : Bool
  deriving DecidableEq, Repr

structure Lease where
  task : Task
  gen : String
  units : Nat
  diskGb : Nat
  release : String
  lastBeat : Nat
  startedAt : Option Nat
  phase : Phase
  ending : Option Ending
  netSlot : Option Nat
  agentCalls : Option Nat
  lane : Option Lane
  deriving DecidableEq, Repr

namespace Lease

def key (l : Lease) : Key := (l.task.id, l.gen)

def arch (l : Lease) : String := (l.lane.map Lane.arch).getD l.task.arch

def emulated (l : Lease) : Bool := l.lane.any Lane.emulated

end Lease

/-! ## Kinds -/

def kinds : List String := ["build", "trial", "audit"]

def poolKinds : List String :=
  ["sync", "render", "promote", "rollback", "security", "gc", "verify", "relayout", "enqueue",
    "publish", "health"]

def helperKinds : List String := ["health", "promote", "security", "enqueue"]

def laneKinds : List String := ["build", "trial"]

def ringArches : List String := ["x86_64", "aarch64"]

/-- `jobs::is_job`. -/
def isJob (kind : String) : Bool := poolKinds.contains kind

def Lease.isJob (l : Lease) : Bool := Dispatch.isJob l.task.kind

def hasHelpers (kind : String) : Bool := helperKinds.contains kind

/-- The architectures a pool job's helper containers run. -/
def helperArches (task : Task) (native : String) : List String :=
  let named := task.named.filter ringArches.contains
  if task.kind = "health" then [named.getD task.arch]
  else if task.kind = "promote" then
    match named with
    | some arch => [arch]
    | none => ringArches
  else if task.kind = "security" then ringArches
  else if task.kind = "enqueue" then [native]
  else []

/-- `spec::Kind`. -/
inductive Kind where
  | build
  | modelBuild
  | audit
  | trial
  deriving DecidableEq, Repr

namespace Kind

/-- It needs an agent sidecar. -/
def model : Kind → Bool
  | .modelBuild => true
  | .audit => true
  | _ => false

def builds : Kind → Bool
  | .build => true
  | .modelBuild => true
  | _ => false

end Kind

def kindOf (l : Lease) : Option Kind :=
  if l.task.kind = "build" then
    if l.task.pkgbuildRef.startsWith "draft:" || l.task.pkgbuildRef.startsWith "review:" then some .modelBuild
    else some .build
  else if l.task.kind = "audit" then some .audit
  else if l.task.kind = "trial" then some .trial
  else none

/-! ## The grammar -/

def hexDigit (c : Char) : Bool := c.isDigit || ('a' ≤ c && c ≤ 'f')

/-- `g_` and sixteen hexadecimal digits. -/
def genOk (gen : String) : Bool :=
  match gen.toList with
  | 'g' :: '_' :: rest => rest.length == 16 && rest.all hexDigit
  | _ => false

def nameOk (name : String) : Bool :=
  match name.toList with
  | [] => false
  | first :: rest =>
      (first :: rest).length ≤ 64 && (first.isLower || first.isDigit) &&
        (first :: rest).all fun c => c.isLower || c.isDigit || ['.', '_', '+', '-'].contains c

def platformOf (arch : String) : Option String :=
  if arch = "x86_64" then some "linux/amd64"
  else if arch = "aarch64" then some "linux/arm64"
  else none

inductive Trust where
  | community
  | project
  deriving DecidableEq, Repr

def Trust.of (text : String) : Option Trust :=
  if text = "community" then some .community
  else if text = "project" then some .project
  else none

/-- What a contributor wrote: it runs in the host's sandboxed runtime where there is one. -/
def sandboxed (trust kind : String) (review : Bool) : Bool :=
  !(trust = "project" && kind = "build" && !review)

/-! ## The share of the machine -/

structure Constants where
  unitCpus : Nat
  unitMemGb : Nat
  largestTaskUnits : Nat
  deriving Repr

namespace Constants

/-- The units a claim may offer: all that are free, or what the memory available still holds. -/
def offer (c : Constants) (room : Nat) : Option Nat → Nat
  | none => room
  | some mem =>
      let largest := min room c.largestTaskUnits
      if largest * c.unitMemGb ≤ mem then room
      else min (mem / max c.unitMemGb 1) room

def memGb (c : Constants) (units : Nat) : Nat := max units 1 * c.unitMemGb

theorem offer_le (c : Constants) (room : Nat) (mem : Option Nat) : c.offer room mem ≤ room := by
  unfold offer
  split
  · exact Nat.le_refl room
  · dsimp only
    split
    · exact Nat.le_refl room
    · exact Nat.min_le_right _ _

end Constants

/-- `run/capacity.json`, its units apart. -/
structure Capacity where
  read : String
  belowMinimum : Bool
  arch : String
  emulated : List String
  engineFreeGb : Nat
  /-- The sandboxed runtime's name. -/
  sandbox : Option String
  deriving DecidableEq, Repr

/-- The lane a leased task runs on; `imageOk`: the architecture's build image is given by digest. -/
def laneOf (task : Task) (lane : Option String) (cap : Option Capacity) (nativeArch : String)
    (imageOk : String → Bool) : Except String Lane :=
  let own := (cap.map Capacity.arch).getD nativeArch
  if !laneKinds.contains task.kind then .ok ⟨own, false⟩
  else if (lane = none || lane = some "native") && task.arch = own then .ok ⟨own, false⟩
  else if lane = some "emulated" && task.arch ≠ own && cap.any fun c => c.emulated.contains task.arch then
    if imageOk task.arch then .ok ⟨task.arch, true⟩
    else .error ("build image of the " ++ task.arch ++ " lane is not an image by digest (repository@sha256:…)")
  else
    let word :=
      if lane = none || lane = some "native" then "native"
      else if lane = some "emulated" then "emulated"
      else "such"
    let emulated :=
      match cap with
      | none => "unknown"
      | some c => if c.emulated.isEmpty then "none" else ", ".intercalate c.emulated
    .error ("this host runs no " ++ word ++ " lane of " ++ task.arch ++ " (its native lane is " ++ own ++
      ", its emulated ones " ++ emulated ++ "): handed back")

/-! ## The day's budget -/

structure Caps where
  callsPerTask : Nat
  callsPerDay : Nat
  deriving Repr

def secondsPerDay : Nat := 86400

def dayOf (time : Nat) : Nat := time / secondsPerDay

/-- `state/agent-day.json`. -/
structure Day where
  day : Nat
  calls : Nat
  deriving DecidableEq, Repr

def u32Max : Nat := 4294967295

namespace Day

/-- The ledger as it reads at `now`: another day's says nothing. -/
def read (ledger : Option Day) (now : Nat) : Day :=
  match ledger with
  | some d => if d.day = dayOf now then d else ⟨dayOf now, 0⟩
  | none => ⟨dayOf now, 0⟩

def spent (ledger : Option Day) (now : Nat) : Nat := (read ledger now).calls

def add (ledger : Option Day) (now calls : Nat) : Day :=
  ⟨dayOf now, min ((read ledger now).calls + calls) u32Max⟩

end Day

/-- What a new sidecar may spend. -/
def grant (caps : Caps) (spentToday reserved : Nat) : Nat :=
  min caps.callsPerTask (caps.callsPerDay - spentToday - reserved)

theorem grant_le {caps : Caps} {spentToday reserved : Nat} (some_left : grant caps spentToday reserved ≠ 0) :
    spentToday + reserved + grant caps spentToday reserved ≤ caps.callsPerDay := by
  have within : grant caps spentToday reserved ≤ caps.callsPerDay - spentToday - reserved :=
    Nat.min_le_right _ _
  omega

/-! ## The engine calls of a start -/

inductive Role where
  | task
  | egress
  | agent
  deriving DecidableEq, Repr

/-- One call of a plan; an agent sidecar is created with the calls it may make. -/
inductive Call where
  | network
  | create (role : Role) (calls : Nat)
  | connect
  | start (role : Role)
  | run
  deriving DecidableEq, Repr

/-- The network, the egress sidecar, a model kind's agent sidecar, then the task container. -/
def plan (kind : Kind) (direct : Bool) (calls : Nat) : List Call :=
  [.network] ++ (if direct then [] else [.create .egress 0, .connect, .start .egress]) ++
    (if kind.model then [.create .agent calls, .start .agent] else []) ++ [.run]

/-- Where a plan starts the agent sidecar. -/
def agentStart (calls : List Call) : Option Nat := calls.findIdx? fun c => decide (c = .start .agent)

end OmarchyPool.Dispatch
