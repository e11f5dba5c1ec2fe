/-
# OmarchyPool.Gate.Evaluate -- the promotion gate's decision

`evaluate` decides from recorded events whether the ring `fromRing` may be promoted into `toRing`.  For each
architecture it folds the ring's rows five times: the newest health row, the failures of the last day, the
row of green checks since the head was made, the newest recent ABI check, and the security regressions given.
Each fold that fails adds a reason (`archReasons`), and the verdict is read off the reasons (`verdictOf`).

A status is one of the three the events table admits, a time is what `parseIso8601` reads of its text, and the
age of the newest row, a number to print, is kept in seconds.
-/
import OmarchyPool.Lib.Sorting
import OmarchyPool.Clock

namespace OmarchyPool.Gate

open OmarchyPool.Lib
open OmarchyPool.Manifest (Bytes ascii)
open OmarchyPool.Clock (parseIso8601)

set_option autoImplicit false

/-! ## Events and options -/

inductive Status where
  | ok | warn | error
deriving DecidableEq, Repr

structure Event where
  id : Nat
  kind : String
  ring : Option String
  source : Option String
  status : Status
  summary : String
  createdAt : Bytes
deriving DecidableEq, Repr

structure GateOptions where
  fromRing : String
  toRing : String
  arches : List String
  soakChecks : Nat
  maxAgeHours : Nat
deriving DecidableEq, Repr

def GateOptions.maxAge (opts : GateOptions) : Int := opts.maxAgeHours * 3600

inductive Verdict where
  | promote
  | skip (why : String)
  | block (reasons : List String)
deriving DecidableEq, Repr

structure ArchEvidence where
  arch : String
  latestStatus : Option Status
  latestAge : Option Int
  checksInWindow : Nat
  errorsInWindow : Nat
  greensSinceHead : Nat
  abiStatus : Option Status
  securityRegressions : Nat
deriving DecidableEq, Repr

structure GateReport where
  verdict : Verdict
  evidence : List ArchEvidence
deriving DecidableEq, Repr

def flapping : Nat := 3
def window : Int := 86400

def Event.age (now : Int) (e : Event) : Option Int := (parseIso8601 e.createdAt).map (now - ·)

/-- A row of the ring and the architecture. -/
def Event.isOf (kind ring arch : String) (e : Event) : Bool :=
  e.kind = kind && e.ring = some ring && e.source = some arch

/-! ## The folds -/

/-- The health rows of the ring and the architecture, newest first. -/
def ofArch (events : List Event) (ring arch : String) : List Event :=
  sortBy (fun x y => compare y.id x.id) (events.filter (Event.isOf "health" ring arch))

def inWindow (now : Int) (rows : List Event) : List Event := rows.filter fun e => (e.age now).any (· ≤ window)

/-- The latest `abi` check young enough to be evidence: `max_by_key`, the last of the greatest. -/
def latestAbi (events : List Event) (ring arch : String) (now maxAge : Int) : Option Event :=
  (events.filter fun e => e.isOf "abi" ring arch && (e.age now).any (· ≤ maxAge)).foldl
    (fun best e => if best.all fun b => b.id ≤ e.id then some e else best) none

/-- Made after the head of the ring, where that is known. -/
def afterHead (headAt : Option Int) (e : Event) : Bool :=
  headAt.all fun head => (parseIso8601 e.createdAt).any fun t => head < t

/-- The soak: checks that did not fail in a row, newest first, made after the head. -/
def greensSince (newestFirst : List Event) (headAt : Option Int) : Nat :=
  (newestFirst.takeWhile fun e => afterHead headAt e && e.status != .error).length

/-! ## The decision -/

section Decision

variable (events : List Event) (now : Int) (fromHeadAt : Option Int) (opts : GateOptions)

def errorsOf (rows : List Event) : Nat := (inWindow now rows).countP (·.status == .error)

def latestReasons (arch : String) : Option Event → List String
  | none => [arch ++ ": no health check of " ++ opts.fromRing ++ " recorded"]
  | some e =>
      if e.status = .error then [arch ++ ": latest health of " ++ opts.fromRing ++ " failed — " ++ e.summary]
      else if (e.age now).all (opts.maxAge < ·) then
        [arch ++ ": latest health of " ++ opts.fromRing ++ " is older than " ++ toString opts.maxAgeHours ++ " h"]
      else []

/-- The reasons one architecture's evidence gives against a promotion. -/
def archReasons (arch : String) : List String :=
  let rows := ofArch events opts.fromRing arch
  let errors := errorsOf now rows
  let greens := greensSince rows fromHeadAt
  latestReasons now opts arch rows.head? ++
  (if flapping ≤ errors then
    [arch ++ ": " ++ toString errors ++ " failed health check(s) of " ++ opts.fromRing ++ " in the last day"] else []) ++
  (if greens < opts.soakChecks then
    [arch ++ ": " ++ toString greens ++ " of " ++ toString opts.soakChecks ++ " green health check(s) of " ++
      opts.fromRing ++ " since its current release"] else []) ++
  match (latestAbi events opts.fromRing arch now opts.maxAge).filter (·.status = .error) with
  | some e => [arch ++ ": ABI check of " ++ opts.fromRing ++ " failed — " ++ e.summary]
  | none => []

def archEvidence (regressions : List String) (arch : String) : ArchEvidence :=
  let rows := ofArch events opts.fromRing arch
  { arch := arch
    latestStatus := rows.head?.map (·.status)
    latestAge := rows.head?.bind (·.age now)
    checksInWindow := (inWindow now rows).length
    errorsInWindow := errorsOf now rows
    greensSinceHead := greensSince rows fromHeadAt
    abiStatus := (latestAbi events opts.fromRing arch now opts.maxAge).map (·.status)
    securityRegressions := regressions.length }

/-- The regressions given for the `i`-th architecture. -/
def regressionsAt (security : List (List String)) (i : Nat) : List String := (security[i]?).getD []

def reasonsOf (security : List (List String)) : List String :=
  opts.arches.zipIdx.flatMap fun (arch, i) =>
    (regressionsAt security i).map (arch ++ ": " ++ ·) ++ archReasons events now fromHeadAt opts arch

def noRelease : String := opts.fromRing ++ " has no release"

def verdictOf (fromHead toSource : Option Nat) (reasons : List String) : Verdict :=
  if reasons ≠ [] then .block reasons
  else
    match fromHead, toSource with
    | some head, some src =>
        if head = src then
          .skip (opts.toRing ++ " already serves the head of " ++ opts.fromRing ++ " (release " ++ toString head ++ ")")
        else .promote
    | none, _ => .block [noRelease opts]
    | some _, none => .promote

def evaluate (fromHead toSource : Option Nat) (security : List (List String)) : GateReport where
  verdict := verdictOf opts fromHead toSource (reasonsOf events now fromHeadAt opts security)
  evidence := opts.arches.zipIdx.map fun (arch, i) =>
    archEvidence events now fromHeadAt opts (regressionsAt security i) arch

end Decision

end OmarchyPool.Gate
