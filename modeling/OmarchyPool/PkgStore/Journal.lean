/-
# OmarchyPool.PkgStore.Journal -- the steps of a transaction, and of its recovery

A transaction stages its archives, plans, writes the plan to the journal, applies it call by call,
commits the tables and cleans up; a record in the database says how far it is.  The process may
die between any two calls or database writes.  Opening the store goes by the record: it rolls back
what was being applied, or finishes the cleaning up of what was committed, and may die itself.
A call that fails stops the transaction like a death does, and the rollback the process then does
itself is the one that opening the store does.
-/
import OmarchyPool.Lib.CrashSafe
import OmarchyPool.Lib.FileTree
import OmarchyPool.PkgStore.Plan

namespace OmarchyPool.PkgStore

open OmarchyPool.Lib

set_option autoImplicit false

/-- The tree under the store's root, a file's content being what is compared of it. -/
abbrev Files := FileTree String

/-! ## The file system helpers -/

def oldSuffix : String := ".omarchy-old"
def newSuffix : String := ".omarchy-new"

def sibling (loc : Loc) (suffix : String) : Loc := loc.dropLast ++ [loc.getLastD "" ++ suffix]

/-- The components of a path below the root. -/
def components (path : String) : List String :=
  ((path.toList.splitOn '/').map String.ofList).filter fun name => name ≠ "" ∧ name ≠ "."

/-- Something is at a path, a link at its end not followed; a trailing slash asks for a directory. -/
def existsNoFollow (fs : Files) (path : String) : Bool :=
  if isDir path then (fs.follow (components path)).any fun loc => fs.entry loc = some .dir
  else (fs.locate (components path)).any fun loc => (fs.entry loc).isSome

/-- A call on the location of a path. -/
def onPath (path : String) (call : Loc → Step Files) : Step Files :=
  fun fs => (fs.locate (components path)).bind fun loc => call loc fs

/-- A call where a missing name is as good as done. -/
def ifFound (fs : Files) : Except Errno Files → Option Files
  | .ok fs' => some fs'
  | .error .notFound => some fs
  | .error .other => none

def removeFileIfExists (loc : Loc) : Step Files := fun fs => ifFound fs (fs.unlink loc)

def renameIfExists (src dst : Loc) : Step Files := fun fs => ifFound fs (fs.rename src dst)

/-- Removes a file or a link and leaves a directory alone. -/
def removeEntryIfExists (loc : Loc) : Step Files :=
  fun fs => if fs.entry loc = some .dir then some fs else removeFileIfExists loc fs

/-- One directory of `create_dir_all`. -/
def createDir (front : List String) : Step Files := fun fs =>
  if (fs.follow front).any fun loc => fs.entry loc = some .dir then some fs
  else (fs.locate front).bind fun loc => (fs.create loc .dir).toOption

def createDirAll (dir : List String) : List (Step Files) := dir.inits.tail.map createDir

/-- The staged entry that goes to a path. -/
def stagedAt (staging : List String) (source : Source) (fs : Files) : Option (Entry String) :=
  (fs.locate (staging ++ source.package :: components source.path)).bind fs.entry

/-- The new entry is made beside its path, then renamed over it. -/
def place (staging : List String) (source : Source) (path : String) : List (Step Files) :=
  [fun fs =>
      if (stagedAt staging source fs).isNone then none
      else onPath path (fun dest => removeFileIfExists (sibling dest newSuffix)) fs,
    onPath path fun dest fs =>
      match stagedAt staging source fs with
      | none | some .dir => none
      | some e => (fs.create (sibling dest newSuffix) e).toOption,
    onPath path fun dest fs => (fs.rename (sibling dest newSuffix) dest).toOption]

def pruneEmptyDir (dir : String) : Step Files := fun fs =>
  some (((fs.locate (components dir)).bind fun loc => (fs.rmdir loc).toOption).getD fs)

/-- The longest first. -/
def pruneEmptyDirs (dirs : List String) : List (Step Files) :=
  (dirs.insertionSort fun a b => b.utf8ByteSize ≤ a.utf8ByteSize).map pruneEmptyDir

/-! ## Apply, roll back, clean up -/

def moveAside (path : String) : Step Files :=
  onPath path fun dest => renameIfExists dest (sibling dest oldSuffix)

def placeFrom (staging : List String) (plan : Plan) (path : String) : List (Step Files) :=
  match plan.sources.get path with
  | some source => place staging source path
  | none => [fun _ => none]

def applyOp (staging : List String) (plan : Plan) : JournalEntry → List (Step Files)
  | .created path => createDirAll (components path).dropLast ++ placeFrom staging plan path
  | .replaced path => moveAside path :: placeFrom staging plan path
  | .removed path => [moveAside path]

def applySteps (staging : List String) (plan : Plan) : List (Step Files) :=
  plan.dirs.flatMap (fun dir => createDirAll (components dir.1)) ++
    plan.ops.flatMap (applyOp staging plan)

def discardNew (path : String) : Step Files :=
  onPath path fun abs => removeFileIfExists (sibling abs newSuffix)

/-- What stands at a path is discarded when its backup is there. -/
def discardPlaced (path : String) : Step Files := onPath path fun abs fs =>
  if (fs.entry (sibling abs oldSuffix)).isSome then removeEntryIfExists abs fs else some fs

def restoreBackup (path : String) : Step Files := onPath path fun abs fs =>
  if (fs.entry (sibling abs oldSuffix)).isSome then renameIfExists (sibling abs oldSuffix) abs fs
  else some fs

def rollbackOp : JournalEntry → List (Step Files)
  | .created path => [discardNew path, onPath path removeEntryIfExists]
  | .replaced path | .removed path => [discardNew path, discardPlaced path, restoreBackup path]

def rollbackSteps (ops : List JournalEntry) : List (Step Files) := ops.reverse.flatMap rollbackOp

/-- A backup that cannot be removed is only warned of. -/
def removeBackup (path : String) : Step Files := fun fs =>
  some ((onPath path (fun abs => removeEntryIfExists (sibling abs oldSuffix)) fs).getD fs)

def cleanupOp : JournalEntry → List (Step Files)
  | .created _ => []
  | .replaced path | .removed path => [removeBackup path]

def cleanupSteps (ops : List JournalEntry) (pruneDirs : List String) : List (Step Files) :=
  ops.flatMap cleanupOp ++ pruneEmptyDirs pruneDirs

/-! ## The record, and where a process dies -/

inductive TransactionState where
  | staging
  | applying
  | committed
  deriving DecidableEq

structure TransactionRecord where
  state : TransactionState
  ops : List JournalEntry
  pruneDirs : List String
  deriving DecidableEq

/-- The record once the plan is in the journal. -/
def Plan.record (p : Plan) (state : TransactionState) : TransactionRecord :=
  ⟨state, p.ops, p.pruneDirs⟩

structure Store where
  root : Files
  tables : Tables
  record : Option TransactionRecord

/-- What staging, and removing what was staged, may do: anything inside the staging area, and
nothing else but make the directories it is in. -/
def Stages (area : Loc) (fs fs' : Files) : Prop :=
  ∀ loc, ¬ area <+: loc → fs'.entry loc = fs.entry loc ∨
    loc <+: area ∧ fs.entry loc = none ∧ fs'.entry loc = some .dir

/-- A transaction as it is run. -/
structure Transaction where
  /-- The staging area, and the transaction's own directory in it. -/
  area : Loc
  staging : List String
  request : Request
  /-- The tree and the tables before. -/
  before : Files
  tables : Tables
  /-- The tree with the archives unpacked. -/
  staged : Files
  /-- Mode and hash of a staged entry. -/
  describe : Entry String → Meta
  modified : String → TrackedFile → Bool
  now : Nat

namespace Transaction

variable (T : Transaction)

/-- What the staged tree answers the plan. -/
def disk : Disk where
  there := existsNoFollow T.staged
  staged package path := (stagedAt T.staging ⟨package, path⟩ T.staged).map T.describe
  modified := T.modified

/-- The plan is made over the unpacked archives. -/
structure Planned (p : Plan) : Prop where
  unpacked : Stages T.area T.before T.staged
  made : plan T.tables T.disk T.request = .ok p

/-- The store as the commit leaves it. -/
inductive Commits : Store → Prop where
  | whole {p : Plan} {fs : Files} (planned : T.Planned p)
      (applied : runSteps (applySteps T.staging p) T.staged = some fs) :
      Commits ⟨fs, commitState T.tables T.request p T.now, some (p.record .committed)⟩

/-- The stores a process may leave behind, whichever of its steps was the last. -/
inductive Leaves : Store → Prop where
  | untouched : Leaves ⟨T.before, T.tables, none⟩
  | staging {fs : Files} (unpacking : Stages T.area T.before fs) :
      Leaves ⟨fs, T.tables, some ⟨.staging, [], []⟩⟩
  | applying {p : Plan} {fs : Files} (planned : T.Planned p)
      (stopped : Stopped (applySteps T.staging p) T.staged fs) :
      Leaves ⟨fs, T.tables, some (p.record .applying)⟩
  | committed {s : Store} (commits : T.Commits s) : Leaves s

end Transaction

/-! ## Opening the store -/

def recoverySteps (record : TransactionRecord) : List (Step Files) :=
  match record.state with
  | .staging => []
  | .applying => rollbackSteps record.ops
  | .committed => cleanupSteps record.ops record.pruneDirs

/-- A recovery that dies: among its steps, or while it removes what was staged. -/
inductive Recovers (area : Loc) : Store → Store → Prop where
  | stops {fs fs' : Files} {t : Tables} {record : TransactionRecord}
      (stopped : Stopped (recoverySteps record) fs fs') :
      Recovers area ⟨fs, t, some record⟩ ⟨fs', t, some record⟩
  | unstages {fs fs' fs'' : Files} {t : Tables} {record : TransactionRecord}
      (all : runSteps (recoverySteps record) fs = some fs') (removing : Stages area fs' fs'') :
      Recovers area ⟨fs, t, some record⟩ ⟨fs'', t, some record⟩

/-- A recovery that completes; the process that committed cleans up the same way. -/
inductive Opens (area : Loc) : Store → Store → Prop where
  | clean {fs : Files} {t : Tables} : Opens area ⟨fs, t, none⟩ ⟨fs, t, none⟩
  | recovered {fs fs' fs'' : Files} {t : Tables} {record : TransactionRecord}
      (all : runSteps (recoverySteps record) fs = some fs') (removing : Stages area fs' fs'') :
      Opens area ⟨fs, t, some record⟩ ⟨fs'', t, none⟩

/-! ## What is compared -/

/-- What is no directory, outside the staging area. -/
def entriesOutside (area : Loc) (fs : Files) (loc : Loc) : Option (Entry String) :=
  if area <+: loc then none
  else if fs.entry loc = some .dir then none
  else fs.entry loc

def SameStore (area : Loc) (s s' : Store) : Prop :=
  entriesOutside area s.root = entriesOutside area s'.root ∧ s.tables = s'.tables

/-- No name of a backup or of an entry being placed. -/
def NoLeftovers (fs : Files) : Prop :=
  ∀ loc, fs.entry (sibling loc oldSuffix) = none ∧ fs.entry (sibling loc newSuffix) = none

end OmarchyPool.PkgStore
