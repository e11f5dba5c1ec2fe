/-
# OmarchyPool.Agent.Narrowing -- a narrowing of the host's capacity, and its base

`run/capacity.json` is detection's file, read before every claim.  The pool may narrow the host's units
and its emulated lanes inside the owner's envelope; the agent writes the narrowed values into the same
file and keeps what detection said under `detected`.  `Base.parse` reads the file through a narrowing,
`Base.narrowed` applies one, and every narrowing starts from the base.

`narrowing_undone`: whatever was narrowed before, the base of a file the agent wrote is detection's, so
a narrowing depends on the last settings and envelope alone, and it never gives more than detection,
envelope and setting each do.

A file is the value its bytes are read as; bytes that are no JSON are refused as a `null` is.
-/
import Mathlib.Data.String.Basic
import Mathlib.Tactic.Common
import OmarchyPool.Lib.SortedMap

namespace OmarchyPool.Agent.Narrowing

open OmarchyPool.Lib

set_option autoImplicit false

/-! ## JSON -/

/-- `serde_json::Value`.  An object is its entries in the order of their keys. -/
inductive Json where
  | null
  | bool (b : Bool)
  /-- A `u64`. -/
  | number (n : Nat)
  /-- A number that is none, as it is written. -/
  | other (text : String)
  | string (text : String)
  | array (items : List Json)
  | object (fields : List (String × Json))

namespace Json

mutual

def same : Json → Json → Bool
  | .null, .null => true
  | .bool a, .bool b => a == b
  | .number a, .number b => a == b
  | .other a, .other b => a == b
  | .string a, .string b => a == b
  | .array a, .array b => sameItems a b
  | .object a, .object b => sameFields a b
  | _, _ => false

def sameItems : List Json → List Json → Bool
  | [], [] => true
  | a :: as, b :: bs => same a b && sameItems as bs
  | _, _ => false

def sameFields : List (String × Json) → List (String × Json) → Bool
  | [], [] => true
  | (key, a) :: as, (key', b) :: bs => key == key' && same a b && sameFields as bs
  | _, _ => false

end

mutual

theorem same_iff : (a b : Json) → (same a b = true ↔ a = b)
  | .null, b => by cases b <;> simp [same]
  | .bool _, b => by cases b <;> simp [same]
  | .number _, b => by cases b <;> simp [same]
  | .other _, b => by cases b <;> simp [same]
  | .string _, b => by cases b <;> simp [same]
  | .array a, b => by
      cases b with
      | array b => simpa [same] using sameItems_iff a b
      | _ => simp [same]
  | .object a, b => by
      cases b with
      | object b => simpa [same] using sameFields_iff a b
      | _ => simp [same]

theorem sameItems_iff : (a b : List Json) → (sameItems a b = true ↔ a = b)
  | [], b => by cases b <;> simp [sameItems]
  | a :: as, b => by
      cases b with
      | nil => simp [sameItems]
      | cons b bs => simp [sameItems, same_iff a b, sameItems_iff as bs]

theorem sameFields_iff : (a b : List (String × Json)) → (sameFields a b = true ↔ a = b)
  | [], b => by cases b <;> simp [sameFields]
  | (key, a) :: as, b => by
      cases b with
      | nil => simp [sameFields]
      | cons entry bs =>
          obtain ⟨key', b⟩ := entry
          simp [sameFields, same_iff a b, sameFields_iff as bs]

end

instance : DecidableEq Json := fun a b => decidable_of_iff (same a b = true) (same_iff a b)

/-- `value["key"]`: null where there is no such field. -/
def field (key : String) : Json → Json
  | .object fields => (OrderedMap.get key fields).getD .null
  | _ => .null

def asStr : Json → Option String
  | .string text => some text
  | _ => none

def asU64 : Json → Option Nat
  | .number n => some n
  | _ => none

def asArray : Json → Option (List Json)
  | .array items => some items
  | _ => none

/-- `Option`s, as they are serialised: null for none. -/
def ofOption {α : Type} (write : α → Json) (value : Option α) : Json := value.elim .null write

end Json

/-- `Map<String, Value>`. -/
abbrev File := SortedMap String Json

/-- A `u32` of a file, when it says one. -/
def numberOf (file : File) (key : String) : Option Nat :=
  ((file.get key).bind Json.asU64).filter (· < 2 ^ 32)

def arrayOf (file : File) (key : String) : List Json := ((file.get key).bind Json.asArray).getD []

/-! ## Settings and the envelope -/

/-- What the pool narrowed; none is the envelope's own. -/
structure Settings where
  units : Option Nat
  emulate : Option (List String)
deriving DecidableEq, Repr

def Settings.value (s : Settings) : Json :=
  .object [("emulate", .ofOption (fun archs => .array (archs.map .string)) s.emulate),
    ("units", .ofOption .number s.units)]

/-- The envelope's bounds. -/
structure Policy where
  maxUnits : Option Nat
  emulate : Option (List String)
deriving DecidableEq, Repr

/-- The word on an architecture: absent, every foreign one may run. -/
def allowed (emulate : Option (List String)) (arch : String) : Bool := emulate.all (·.contains arch)

def Policy.allowsLane (p : Policy) (arch : String) : Bool := allowed p.emulate arch

/-- A lane the host does not run, and why. -/
structure Held where
  arch : String
  reason : String
deriving DecidableEq, Repr

def Held.value (held : Held) : Json := .object [("arch", .string held.arch), ("reason", .string held.reason)]

def offInEnvelope (arch : String) : Held := ⟨arch, "off: the envelope's emulate does not list it"⟩

def offInSettings : String := "off: the pool's settings turn it off (set-emulate)"

/-- What the settings give. -/
structure Effect where
  detected : Option Nat
  ceiling : Option Nat
  units : Option Nat
  emulated : List String
  above : List String
deriving DecidableEq, Repr

/-! ## The base -/

/-- The file as detection wrote it. -/
structure Base where
  file : File

/-- What the narrowed file keeps of detection's. -/
def narrowedKeys : List String := ["units", "job_reserved", "lanes", "held_lanes"]

/-- A file read through a narrowing: what it keeps of detection's put back, and the narrowing's own keys gone. -/
def undo (file : File) : File :=
  let file := match file.get "detected" with
    | some (.object d) => (file.erase "detected").extend d
    | _ => file.erase "detected"
  file.erase "settings"

namespace Base

def parse (read : Json) : Except String Base :=
  match read with
  | .object fields => .ok ⟨undo (SortedMap.ofList fields)⟩
  | _ => .error "not a JSON object"

def units (base : Base) : Option Nat := numberOf base.file "units"

def lanes (base : Base) : List Json := arrayOf base.file "lanes"

/-- The most units the envelope lets the host give. -/
def ceiling (base : Base) (p : Policy) : Option Nat :=
  base.units.map fun u => p.maxUnits.elim u (min u)

/-- A lane stays while it is native, or both the envelope and the setting name its architecture. -/
def stays (s : Settings) (p : Policy) (lane : Json) : Bool :=
  lane.field "mode" ≠ .string "emulated" ||
    (lane.field "arch").asStr.any fun arch => p.allowsLane arch && allowed s.emulate arch

/-- Why a lane that is turned off is held. -/
def why (p : Policy) (arch : String) : Held :=
  if p.allowsLane arch then ⟨arch, offInSettings⟩ else offInEnvelope arch

/-- The lanes turned off join the held ones, each architecture once. -/
def hold (p : Policy) (held : List Json) (archs : List String) : List Json :=
  archs.foldl (fun held arch =>
    if held.any fun h => h.field "arch" = .string arch then held else held ++ [(why p arch).value]) held

def emulatedOf (lanes : List Json) : List String :=
  (lanes.filter fun lane => lane.field "mode" = .string "emulated").filterMap fun lane => (lane.field "arch").asStr

/-- The units the settings give. -/
def unitsOf (base : Base) (s : Settings) (p : Policy) : Option Nat :=
  match base.ceiling p, s.units with
  | some c, some u => some (min c u)
  | c, _ => c

/-- What the settings ask above the envelope. -/
def aboveOf (base : Base) (s : Settings) (p : Policy) : List String :=
  (match base.ceiling p, s.units with
    | some c, some u => if u > c then [s!"units {u} is above the envelope's {c}: {c} applies"] else []
    | _, _ => []) ++
  ((s.emulate.getD []).filter fun arch => !p.allowsLane arch).map fun arch =>
    s!"{arch}'s emulated lane is one the envelope excludes: it stays off"

/-- The narrowed units, and of them at most those kept for pool jobs. -/
def withUnits (base : Base) (s : Settings) (p : Policy) (out : File) : File :=
  match base.unitsOf s p with
  | none => out
  | some u =>
      match (base.file.get "job_reserved").bind Json.asU64 with
      | none => out.insert "units" (.number u)
      | some j => (out.insert "units" (.number u)).insert "job_reserved" (.number (min j u))

/-- The lanes that stay. -/
def withLanes (base : Base) (s : Settings) (p : Policy) (out : File) : File :=
  if (base.file.get "lanes").isSome then out.insert "lanes" (.array (base.lanes.filter (stays s p))) else out

/-- The lanes that do not, held. -/
def withHeld (base : Base) (s : Settings) (p : Policy) (out : File) : File :=
  let off := base.lanes.filter (!stays s p ·)
  if off.isEmpty then out
  else out.insert "held_lanes" (.array (hold p (arrayOf base.file "held_lanes")
    (off.filterMap fun lane => (lane.field "arch").asStr)))

def narrowedFile (base : Base) (s : Settings) (p : Policy) : File :=
  base.withHeld s p (base.withLanes s p (base.withUnits s p base.file))

/-- What detection said of the narrowed keys. -/
def detectedOf (base : Base) : File :=
  SortedMap.ofList (OrderedMap.pick (base.file.get ·) narrowedKeys)

/-- The file with the settings and the envelope applied. -/
def narrowed (base : Base) (s : Settings) (p : Policy) : File × Effect :=
  let out := base.narrowedFile s p
  (if out ≠ base.file then
      (out.insert "detected" (.object base.detectedOf.entries)).insert "settings" s.value
    else out,
    { detected := base.units
      ceiling := base.ceiling p
      units := base.unitsOf s p
      emulated := emulatedOf (base.lanes.filter (stays s p))
      above := base.aboveOf s p })

end Base

/-- `settings::apply`: the file after it, whether it was rewritten, and what the settings give. -/
def apply (file : Json) (s : Settings) (p : Policy) : Except String (Json × Bool × Effect) := do
  let base ← Base.parse file
  let out := Json.object (base.narrowed s p).1.entries
  return (out, out ≠ file, (base.narrowed s p).2)

/-! ## Detection's file -/

inductive LaneMode where
  | native | emulated
deriving DecidableEq, Repr

def LaneMode.word : LaneMode → String
  | .native => "native"
  | .emulated => "emulated"

structure Lane where
  arch : String
  mode : LaneMode
  via : Option String
  page16k : Option Bool
deriving DecidableEq, Repr

/-- A field that is left out when there is nothing to say. -/
def unlessNone {α : Type} (key : String) (write : α → Json) (value : Option α) : List (String × Json) :=
  (value.map fun a => (key, write a)).toList

def Lane.value (lane : Lane) : Json :=
  .object ([("arch", .string lane.arch), ("mode", .string lane.mode.word)] ++
    unlessNone "page16k" .bool lane.page16k ++ unlessNone "via" .string lane.via)

inductive Isolation where
  | root | user | subuid | vm | vmShared
deriving DecidableEq, Repr

def Isolation.word : Isolation → String
  | .root => "root"
  | .user => "user"
  | .subuid => "subuid"
  | .vm => "vm"
  | .vmShared => "vm-shared"

inductive SandboxKind where
  | gvisor | kata
deriving DecidableEq, Repr

def SandboxKind.word : SandboxKind → String
  | .gvisor => "gvisor"
  | .kata => "kata"

structure Sandbox where
  runtime : String
  kind : SandboxKind
deriving DecidableEq, Repr

structure Totals where
  cpus : UInt32
  memGb : UInt32
deriving DecidableEq, Repr

structure DiskFree where
  work : UInt64
  engine : UInt64
deriving DecidableEq, Repr

structure Limits where
  cpusHard : Bool
  memoryHard : Bool
  pids : Bool
deriving DecidableEq, Repr

/-- `run/capacity.json`, schema 2, as detection writes it. -/
structure CapacityFile where
  schema : UInt32
  stamp : String
  cpus : UInt32
  memGb : UInt32
  hardware : Option Totals
  pageKb : UInt32
  diskFreeGb : DiskFree
  units : UInt32
  jobReserved : UInt32
  agentSlots : UInt32
  lanes : List Lane
  heldLanes : List Held
  isolation : Isolation
  dedicated : Bool
  limits : Limits
  belowMinimum : Bool
  sandbox : Option Sandbox
  sandboxHeld : Option String
deriving DecidableEq, Repr

namespace CapacityFile

def word (n : UInt32) : Json := .number n.toNat

def fields (c : CapacityFile) : List (String × Json) :=
  [("schema", word c.schema), ("at", .string c.stamp), ("cpus", word c.cpus), ("mem_gb", word c.memGb),
    ("page_kb", word c.pageKb),
    ("disk_free_gb", .object [("engine", .number c.diskFreeGb.engine.toNat), ("work", .number c.diskFreeGb.work.toNat)]),
    ("units", word c.units), ("job_reserved", word c.jobReserved), ("agent_slots", word c.agentSlots),
    ("lanes", .array (c.lanes.map Lane.value)), ("held_lanes", .array (c.heldLanes.map Held.value)),
    ("isolation", .string c.isolation.word), ("dedicated", .bool c.dedicated),
    ("limits", .object [("cpus_hard", .bool c.limits.cpusHard), ("memory_hard", .bool c.limits.memoryHard),
      ("pids", .bool c.limits.pids)]),
    ("below_minimum", .bool c.belowMinimum),
    ("sandbox", .ofOption (fun sandbox => .object [("kind", .string sandbox.kind.word),
      ("runtime", .string sandbox.runtime)]) c.sandbox)] ++
  unlessNone "hardware" (fun hardware => .object [("cpus", word hardware.cpus), ("mem_gb", word hardware.memGb)])
    c.hardware ++
  unlessNone "sandbox_held" .string c.sandboxHeld

def file (c : CapacityFile) : File := SortedMap.ofList c.fields

def base (c : CapacityFile) : Base := ⟨c.file⟩

end CapacityFile

/-! ## The base of a narrowed file -/

/-- A file of detection's: nothing of a narrowing in it, and every key a narrowing keeps. -/
structure Detected (file : File) : Prop where
  detected : file.get "detected" = none
  settings : file.get "settings" = none
  kept : ∀ key ∈ narrowedKeys, (file.get key).isSome

theorem CapacityFile.get_file (c : CapacityFile) (key : String) : c.file.get key = OrderedMap.get key c.fields := by
  have distinct : OrderedMap.Valid c.fields := by
    unfold OrderedMap.Valid fields unlessNone
    cases c.hardware <;> cases c.sandboxHeld <;> simp
  rw [file, SortedMap.ofList, SortedMap.get_extend distinct, SortedMap.get_empty, Option.or_none]

theorem CapacityFile.detected (c : CapacityFile) : Detected c.base.file := by
  rw [CapacityFile.base]
  constructor
  · rw [c.get_file]
    unfold fields unlessNone
    cases c.hardware <;> cases c.sandboxHeld <;> simp [OrderedMap.get]
  · rw [c.get_file]
    unfold fields unlessNone
    cases c.hardware <;> cases c.sandboxHeld <;> simp [OrderedMap.get]
  · intro key member
    rw [c.get_file]
    simp only [narrowedKeys, List.mem_cons, List.not_mem_nil, or_false] at member
    rcases member with rfl | rfl | rfl | rfl <;> simp [fields, OrderedMap.get]

namespace Base

variable (base : Base) (s : Settings) (p : Policy)

section

variable {out : File} {key : String}

theorem get_withUnits (units : key ≠ "units") (jobs : key ≠ "job_reserved") :
    (base.withUnits s p out).get key = out.get key := by
  unfold withUnits
  split
  · rfl
  · split
    · rw [SortedMap.get_insert, if_neg units.symm]
    · rw [SortedMap.get_insert, if_neg jobs.symm, SortedMap.get_insert, if_neg units.symm]

theorem get_withLanes (lanes : key ≠ "lanes") : (base.withLanes s p out).get key = out.get key := by
  unfold withLanes
  split
  · rw [SortedMap.get_insert, if_neg lanes.symm]
  · rfl

theorem get_withHeld (held : key ≠ "held_lanes") : (base.withHeld s p out).get key = out.get key := by
  unfold withHeld
  extract_lets off
  split
  · rfl
  · rw [SortedMap.get_insert, if_neg held.symm]

end

theorem get_narrowedFile {key : String} (other : key ∉ narrowedKeys) :
    (base.narrowedFile s p).get key = base.file.get key := by
  simp only [narrowedKeys, List.mem_cons, List.not_mem_nil, or_false, not_or] at other
  obtain ⟨units, jobs, lanes, held⟩ := other
  unfold narrowedFile
  rw [base.get_withHeld s p held, base.get_withLanes s p lanes, base.get_withUnits s p units jobs]

theorem get_detectedOf (key : String) :
    base.detectedOf.get key = if key ∈ narrowedKeys then base.file.get key else none := by
  have distinct : OrderedMap.Valid (OrderedMap.pick (base.file.get ·) narrowedKeys) :=
    OrderedMap.Valid.pick _ (by decide)
  rw [detectedOf, SortedMap.ofList, SortedMap.get_extend distinct, SortedMap.get_empty, Option.or_none,
    OrderedMap.get_pick]

/-- A file that keeps what detection said, under `detected` or as it is. -/
def Keeps (file : File) : Prop :=
  file.get "detected" = some (.object base.detectedOf.entries) ∨
    file.get "detected" = none ∧ ∀ key ∈ narrowedKeys, file.get key = base.file.get key

/-- Its values are back, and the rest is as the file has it. -/
theorem Keeps.get_undo {base : Base} {file : File} (keeps : base.Keeps file) (detected : Detected base.file)
    (key : String) :
    (undo file).get key = if key ∈ narrowedKeys then base.file.get key
      else if "settings" = key ∨ "detected" = key then none else file.get key := by
  have notSettings : key ∈ narrowedKeys → "settings" ≠ key := by
    rintro member rfl
    exact absurd member (by decide)
  unfold undo
  rcases keeps with kept | ⟨none_, same⟩
  · rw [kept]
    simp only [SortedMap.get_erase, SortedMap.get_extend base.detectedOf.valid]
    show (if "settings" = key then none else (base.detectedOf.get key).or _) = _
    rw [get_detectedOf]
    by_cases member : key ∈ narrowedKeys
    · obtain ⟨value, there⟩ := Option.isSome_iff_exists.mp (detected.kept key member)
      rw [if_neg (notSettings member), if_pos member, if_pos member, there]
      rfl
    · rw [if_neg member, if_neg member, Option.none_or]
      by_cases isSettings : "settings" = key <;> simp [isSettings]
  · rw [none_]
    simp only [SortedMap.get_erase]
    by_cases member : key ∈ narrowedKeys
    · have notDetected : "detected" ≠ key := by
        rintro rfl
        exact absurd member (by decide)
      rw [if_neg (notSettings member), if_pos member, if_neg notDetected, same key member]
    · rw [if_neg member]
      by_cases isSettings : "settings" = key <;> simp [isSettings]

theorem keeps_narrowed (detected : Detected base.file) : base.Keeps (base.narrowed s p).1 := by
  unfold narrowed
  extract_lets out
  dsimp only
  split
  · left
    rw [SortedMap.get_insert, if_neg (by decide), SortedMap.get_insert, if_pos rfl]
  · rename_i same
    right
    rw [not_not.mp same]
    exact ⟨detected.detected, fun _ _ => rfl⟩

/-- A key that a narrowing does not touch. -/
theorem get_narrowed {key : String} (notDetected : "detected" ≠ key) (notSettings : "settings" ≠ key) :
    (base.narrowed s p).1.get key = (base.narrowedFile s p).get key := by
  unfold narrowed
  extract_lets out
  dsimp only
  split
  · rw [SortedMap.get_insert, if_neg notSettings, SortedMap.get_insert, if_neg notDetected]
  · rfl

/-- What a narrowed file is read as, one key aside. -/
theorem get_undo_narrowed (detected : Detected base.file) {file : File} (keeps : base.Keeps file) {key : String}
    (same : file.get key = (base.narrowed s p).1.get key) : (undo file).get key = base.file.get key := by
  rw [keeps.get_undo detected]
  split
  · rfl
  · rename_i other
    split
    · rename_i gone
      rcases gone with rfl | rfl
      · rw [detected.settings]
      · rw [detected.detected]
    · rename_i rest
      rw [not_or] at rest
      rw [same, base.get_narrowed s p rest.2 rest.1, base.get_narrowedFile s p other]

theorem parse_narrowed (detected : Detected base.file) :
    parse (.object (base.narrowed s p).1.entries) = .ok base := by
  unfold parse
  simp only [SortedMap.ofList_entries]
  congr 2
  apply SortedMap.ext_get
  intro key
  exact base.get_undo_narrowed s p detected (base.keeps_narrowed s p detected) rfl

/-- The units of a narrowed file. -/
theorem get_units (u : Nat) (is : base.unitsOf s p = some u) :
    (base.narrowed s p).1.get "units" = some (.number u) := by
  have inFile : (base.narrowedFile s p).get "units" = some (.number u) := by
    unfold narrowedFile
    rw [base.get_withHeld s p (by decide), base.get_withLanes s p (by decide)]
    unfold withUnits
    rw [is]
    dsimp only
    split
    · rw [SortedMap.get_insert, if_pos rfl]
    · rw [SortedMap.get_insert, if_neg (by decide), SortedMap.get_insert, if_pos rfl]
  rw [base.get_narrowed s p (by decide) (by decide), inFile]

/-- The lanes of a narrowed file. -/
theorem lanes_narrowed (there : (base.file.get "lanes").isSome) :
    arrayOf (base.narrowed s p).1 "lanes" = base.lanes.filter (stays s p) := by
  have inFile : (base.narrowedFile s p).get "lanes" = some (.array (base.lanes.filter (stays s p))) := by
    unfold narrowedFile
    rw [base.get_withHeld s p (by decide)]
    unfold withLanes
    rw [if_pos there, SortedMap.get_insert, if_pos rfl]
  unfold arrayOf
  rw [base.get_narrowed s p (by decide) (by decide), inFile]
  rfl

end Base

/-! ## A narrowing is undone, and never widens -/

theorem CapacityFile.units_base (c : CapacityFile) : c.base.units = some c.units.toNat := by
  unfold Base.units numberOf
  have there : c.base.file.get "units" = some (CapacityFile.word c.units) := by
    rw [CapacityFile.base, c.get_file]
    simp [CapacityFile.fields, OrderedMap.get]
  rw [there]
  have small : c.units.toNat < 4294967296 := c.units.toNat_lt
  simp [CapacityFile.word, Json.asU64, Option.filter, small]

theorem CapacityFile.lanes_base (c : CapacityFile) : c.base.lanes = c.lanes.map Lane.value := by
  unfold Base.lanes arrayOf
  have there : c.base.file.get "lanes" = some (.array (c.lanes.map Lane.value)) := by
    rw [CapacityFile.base, c.get_file]
    simp [CapacityFile.fields, OrderedMap.get]
  rw [there]
  rfl

/-- A lane all three allow: detection found it, and an emulated one is named by envelope and setting. -/
def Lane.allowed (s : Settings) (p : Policy) (lane : Lane) : Bool :=
  lane.mode == .native || p.allowsLane lane.arch && Narrowing.allowed s.emulate lane.arch

theorem Lane.stays_value (s : Settings) (p : Policy) (lane : Lane) : Base.stays s p lane.value = lane.allowed s p := by
  have arch : lane.value.field "arch" = .string lane.arch := by simp [Lane.value, Json.field, OrderedMap.get]
  have mode : lane.value.field "mode" = .string lane.mode.word := by simp [Lane.value, Json.field, OrderedMap.get]
  unfold Base.stays Lane.allowed
  rw [arch, mode]
  cases lane.mode <;> simp [LaneMode.word, Json.asStr]

/-- The base of a file narrowed before is detection's, so a narrowing depends on the last settings and envelope
alone and one made twice is made once; the units it gives are at most the detected ones, the envelope's and the
setting's, and the lanes are the detected ones that all three allow. -/
theorem narrowing_undone (c : CapacityFile) (s₁ s₂ : Settings) (p₁ p₂ : Policy) :
    let narrowed := Json.object (c.base.narrowed s₁ p₁).1.entries
    Base.parse narrowed = .ok c.base ∧
    (apply narrowed s₂ p₂).map (·.1) = .ok (.object (c.base.narrowed s₂ p₂).1.entries) ∧
    (apply narrowed s₁ p₁).map (·.1) = .ok narrowed ∧
    (∃ u, (c.base.narrowed s₁ p₁).1.get "units" = some (.number u) ∧ u ≤ c.units.toNat ∧
      (∀ most ∈ p₁.maxUnits, u ≤ most) ∧ ∀ setting ∈ s₁.units, u ≤ setting) ∧
    arrayOf (c.base.narrowed s₁ p₁).1 "lanes" = (c.lanes.filter (Lane.allowed s₁ p₁)).map Lane.value := by
  have undone := c.base.parse_narrowed s₁ p₁ c.detected
  refine ⟨undone, ?_, ?_, ?_, ?_⟩
  · unfold apply
    rw [undone]
    rfl
  · unfold apply
    rw [undone]
    rfl
  · obtain ⟨u, is, detected, most, setting⟩ : ∃ u, c.base.unitsOf s₁ p₁ = some u ∧ u ≤ c.units.toNat ∧
        (∀ most ∈ p₁.maxUnits, u ≤ most) ∧ ∀ setting ∈ s₁.units, u ≤ setting := by
      unfold Base.unitsOf Base.ceiling
      rw [c.units_base]
      cases p₁.maxUnits <;> cases s₁.units <;> simp
    exact ⟨u, c.base.get_units s₁ p₁ u is, detected, most, setting⟩
  · rw [c.base.lanes_narrowed s₁ p₁ (c.detected.kept "lanes" (by decide)), c.lanes_base, List.filter_map]
    congr 1
    exact List.filter_congr fun lane _ => lane.stays_value s₁ p₁

end OmarchyPool.Agent.Narrowing
