/-
# OmarchyPool.TakenBack -- a ring takes a victim back

GC lists its victims and then deletes them one by one, each in four steps: is it served now,
does another row name its object, delete the object, delete the row unless it is served.
The last step asks again, the third does not.  A release that takes the victim back between
the first and the third leaves a ring with a package whose object is gone
(`takenBack_loses_object`), and one whose adds were read before the last step, with an id
that has no row.

`Unclaimed` says when neither happens: an object goes while no ring serves its victim, and a
batch takes no package that GC has had.  The count of the second step needs no such condition:
rows of packages only become fewer while requests and GC run, so an object nobody else named
is named by nobody else when it goes (`Kept.deleteObject`).
-/
import OmarchyPool.Jobs
import OmarchyPool.Objects

namespace OmarchyPool

open Lib

set_option autoImplicit false

/-! ## What a ring needs of a package -/

/-- The bucket held the row's object once, and holds it no more. -/
def Db.lost (db : Db) (bucket : String → Option Blob) (p : Package) : Bool :=
  (bucket p.key).isSome && (db.bucket p.key).isNone

/-- The package has its row, and its row has not lost its object. -/
def Db.Whole (db : Db) (bucket : String → Option Blob) (id : PackageId) : Prop :=
  ∃ p ∈ db.packages, p.id = id ∧ db.lost bucket p = false

/-- A statement finds no ring and no GC in its way: the answer of the probe still stands when
an object goes, and a batch puts in no package without its row or without its object. -/
def Unclaimed (bucket : String → Option Blob) : Event → World → Prop
  | .deleteObject victim, w => w.db.served victim.id = false
  | .create b, w => (∀ id ∈ b.added, (w.db.package? id).isSome = true) ∧
      ∀ p ∈ w.db.joined (b.target w.db), w.db.lost bucket p = false
  | _, _ => True

instance (bucket : String → Option Blob) (event : Event) (w : World) :
    Decidable (Unclaimed bucket event w) := by
  apply Event.casesOn (motive := fun event => Decidable (Unclaimed bucket event w)) event <;> intros <;>
    (dsimp only [Unclaimed]; infer_instance)

/-- The rows are those the pool started with or fewer, and every ring serves whole packages. -/
structure Kept (packages : List Package) (bucket : String → Option Blob) (w : World) : Prop where
  rows : ∀ p ∈ w.db.packages, p ∈ packages
  whole : ∀ ring, ∀ id ∈ w.db.ringPackages ring, w.db.Whole bucket id

/-- Rows of packages only go. -/
def Fewer (w w' : World) : Prop := ∀ p ∈ w'.db.packages, p ∈ w.db.packages

theorem Fewer.refl (w : World) : Fewer w w := fun _ member => member

theorem Fewer.trans {a b d : World} (first : Fewer a b) (second : Fewer b d) : Fewer a d :=
  fun p member => first p (second p member)

/-- A write that touches neither the packages, nor what a ring serves, nor the bucket. -/
structure Db.SameServed (db db' : Db) : Prop where
  packages : db'.packages = db.packages
  live : db'.ringPackages = db.ringPackages
  bucket : db'.bucket = db.bucket

theorem Db.not_served {db : Db} {id : PackageId} (unserved : db.served id = false) (ring : Ring) :
    id ∉ db.ringPackages ring := by
  intro member
  have isServed : db.served id = true :=
    List.any_eq_true.mpr ⟨ring, mem_rings ring, decide_eq_true member⟩
  rw [unserved] at isServed
  cases isServed

namespace Kept

variable {packages : List Package} {bucket : String → Option Blob} {w : World}

theorem fresh (packages : List Package) (bucket : String → Option Blob) :
    Kept packages bucket (World.fresh packages bucket) where
  rows := fun _ member => member
  whole := fun _ id member => by simp [World.fresh] at member

variable (kept : Kept packages bucket w)
include kept

theorem same {db : Db} (same : w.db.SameServed db) :
    Kept packages bucket (w.commit db) ∧ Fewer w (w.commit db) := by
  have fewer : Fewer w (w.commit db) := by
    intro p member
    rwa [World.commit_db, same.packages] at member
  refine ⟨⟨fun p member => kept.rows p (fewer p member), ?_⟩, fewer⟩
  intro ring id member
  rw [World.commit_db, same.live] at member
  obtain ⟨p, inTable, sameId, there⟩ := kept.whole ring id member
  refine ⟨p, by rwa [World.commit_db, same.packages], sameId, ?_⟩
  rwa [Db.lost, World.commit_db, same.bucket]

/-- The object of a victim no ring serves, and no other row named when the rows were counted. -/
theorem deleteObject (indexed : ∀ p ∈ packages, p.indexed = true) {victim : Package}
    (ok : victim.indexed = true) {counted : World} (fewer : Fewer counted w)
    (alone : counted.db.sharedRows victim = 0) (unserved : w.db.served victim.id = false) :
    Kept packages bucket (w.commit (w.db.deleteObject victim)) := by
  refine ⟨kept.rows, fun ring id member => ?_⟩
  have served : id ∈ w.db.ringPackages ring := member
  obtain ⟨p, inTable, rfl, there⟩ := kept.whole ring id served
  have okP := indexed p (kept.rows p inTable)
  have other : p.id ≠ victim.id := fun same => Db.not_served unserved ring (same ▸ served)
  -- A row of the victim's key was there at the count, and the count found none.
  have apart : p.key ≠ victim.key := by
    intro same
    have found : p ∈ counted.db.packages.filter fun q =>
        q.filename == victim.filename && q.id != victim.id && q.key == victim.key := by
      rw [List.mem_filter]
      exact ⟨fewer p inTable, by simp [Package.filename_of_key okP ok same, same, other]⟩
    exact absurd (List.length_eq_zero_iff.mp alone) (List.ne_nil_of_mem found)
  refine ⟨p, inTable, rfl, ?_⟩
  have untouched : (w.db.deleteObject victim).bucket p.key = w.db.bucket p.key := by
    simp only [Db.deleteObject]
    rw [if_neg]
    simp only [List.mem_cons, List.not_mem_nil, or_false, not_or]
    exact ⟨apart, Package.key_ne_sidecar okP (by simp), Package.key_ne_sidecar okP (by simp),
      Package.key_ne_sidecar okP (by simp)⟩
  rwa [Db.lost, World.commit_db, untouched]

/-- The row's own condition: a row a ring serves stays. -/
theorem deleteRow (victim : Package) :
    Kept packages bucket (w.commit (w.db.deleteRow victim)) ∧
      Fewer w (w.commit (w.db.deleteRow victim)) := by
  unfold Db.deleteRow
  by_cases isServed : w.db.served victim.id = true
  · rw [if_pos isServed]
    exact kept.same ⟨rfl, rfl, rfl⟩
  · rw [if_neg isServed]
    have fewer : ∀ p ∈ w.db.packages.filter (·.id != victim.id), p ∈ w.db.packages :=
      fun p member => (List.mem_filter.mp member).1
    refine ⟨⟨fun p member => kept.rows p (fewer p member), fun ring id member => ?_⟩, fewer⟩
    obtain ⟨p, inTable, rfl, there⟩ := kept.whole ring id member
    refine ⟨p, List.mem_filter.mpr ⟨inTable, ?_⟩, rfl, there⟩
    have other : p.id ≠ victim.id := by
      intro same
      exact Db.not_served (Bool.not_eq_true _ ▸ isServed) ring (same ▸ member)
    simpa using other

/-- A batch that takes whole packages. -/
theorem create {b : CreateBatch} (met : Unclaimed bucket (.create b) w) :
    Kept packages bucket (w.commit (w.db.applyRelease b)) := by
  obtain ⟨added, objects⟩ := met
  have target : ∀ id ∈ b.target w.db, w.db.Whole bucket id := by
    intro id member
    have row : (w.db.package? id).isSome = true := by
      have inTarget := member
      simp only [CreateBatch.target, Finset.mem_union, Db.select, Finset.mem_filter,
        List.mem_toFinset] at inTarget
      rcases inTarget with ⟨-, found⟩ | isAdded
      · obtain ⟨p, read, -⟩ := (Option.any_eq_true _ _).mp found
        rw [read]
        rfl
      · exact added id isAdded
    obtain ⟨p, read⟩ := Option.isSome_iff_exists.mp row
    have inTable := List.mem_of_find?_eq_some read
    have sameId : p.id = id := by simpa using List.find?_some read
    refine ⟨p, inTable, sameId, objects p (List.mem_filter.mpr ⟨inTable, ?_⟩)⟩
    rw [sameId]
    exact decide_eq_true member
  have carry : ∀ id, w.db.Whole bucket id → (w.commit (w.db.applyRelease b)).db.Whole bucket id := by
    rintro id ⟨p, inTable, sameId, there⟩
    refine ⟨p, by simpa using inTable, sameId, ?_⟩
    simpa [Db.lost] using there
  refine ⟨fun p member => kept.rows p (by simpa using member), fun ring id member => carry id ?_⟩
  rw [World.commit_db, Db.applyRelease_ringPackages] at member
  by_cases here : ring = b.ring
  · subst here
    rw [Function.update_self] at member
    exact target id (by simpa using member)
  · rw [Function.update_of_ne here] at member
    exact kept.whole ring id member

end Kept

/-! ## The contract -/

def keptContract (packages : List Package) (bucket : String → Option Blob) : Contract World Event where
  inv := Kept packages bucket
  rely := Fewer
  guar := Fewer
  meets := Unclaimed bucket

section Requests

variable {packages : List Package} {bucket : String → Option Blob}

/-- A part of a request that leaves alone what is served. -/
theorem kept_of_only {α : Type} {p : Handler α}
    (only : p.Only fun _ write => ∀ w : World, ∃ db, write w = w.commit db ∧ w.db.SameServed db)
    {w : World} (kept : Kept packages bucket w) :
    p.Spec (keptContract packages bucket) w fun _ w' => Fewer w w' ∧ Kept packages bucket w' := by
  refine Program.Only.spec Fewer (fun _ _ _ => Fewer.trans) Fewer.refl (fun _ _ h => h)
    (fun _ _ h => h) ?_ only kept
  intro event write leaves now keptNow _
  obtain ⟨db, eq, same⟩ := leaves now
  have := Kept.same keptNow same
  rwa [← eq] at this

theorem sameServed_read (_ : Event) (w : World) : ∃ db, id w = w.commit db ∧ w.db.SameServed db :=
  ⟨w.db, (World.commit_self w).symm, rfl, rfl, rfl⟩

theorem kept_serves :
    Serves (keptContract packages bucket) Fewer Fewer (fun _ _ => True) fun _ _ _ => True where
  refl := Fewer.refl
  trans := fun _ _ _ => Fewer.trans
  relied := fun _ _ h => h
  still := Fewer.refl
  laterRefl := Fewer.refl
  laterTrans := fun _ _ _ => Fewer.trans
  laterRelied := fun _ _ h => h
  ensure := by
    intro id w kept
    refine (kept_of_only (Program.Only.mono (ensureCheckpoint_only id) ?_) kept).mono fun _ _ ended =>
      ⟨ended.1, ended.1, ended.2, fun _ => trivial⟩
    rintro _ _ (rfl | ⟨release, ids, rfl⟩) now
    · exact sameServed_read .other now
    · exact ⟨_, rfl, rfl, rfl, rfl⟩
  headLists := fun _ _ _ _ _ => trivial
  rowsList := fun _ _ _ _ => trivial
  listsKept := fun _ _ _ _ _ _ => trivial
  counts := fun id _ _ b change _ _ _ kept _ =>
    have same : b.db.SameServed (b.db.updateRelease id change) := ⟨rfl, rfl, rfl⟩
    have ⟨keptAfter, fewer⟩ := Kept.same kept same
    ⟨keptAfter, fewer, fewer⟩

theorem kept_create (body : CreateRelease) {w : World} (kept : Kept packages bucket w) :
    (handleCreateRelease body).Spec (keptContract packages bucket) w fun _ w' =>
      Kept packages bucket w' := by
  refine (create_spec kept_serves body ?_ kept).mono fun _ _ ended => ended.1
  intro reads now _ _ keptNow met db' done
  unfold Db.createRelease at done
  split at done
  · cases done
  · cases done
    refine ⟨Kept.create keptNow met, fun p member => ?_⟩
    simpa using member

variable (indexed : ∀ p ∈ packages, p.indexed = true)
include indexed

/-- The loop over the victims, with anything between its statements. -/
theorem kept_deleteVictims (victims : List Package) (ok : ∀ v ∈ victims, v.indexed = true)
    (report : GcReport) {w : World} (kept : Kept packages bucket w) :
    (deleteVictims victims report).Spec (keptContract packages bucket) w fun _ w' =>
      Kept packages bucket w' := by
  induction victims generalizing report w with
  | nil => exact kept
  | cons victim rest ih =>
      have okRest : ∀ v ∈ rest, v.indexed = true := fun v member => ok v (List.mem_cons_of_mem _ member)
      unfold deleteVictims
      refine Program.Spec.bind (Program.spec_query Fewer.refl fun w₁ _ kept₁ _ => ?_)
      dsimp only
      split
      · exact ih okRest _ kept₁
      have object : (deleteVictimObject victim).Spec (keptContract packages bucket) w₁ fun _ w' =>
          Kept packages bucket w' := by
        unfold deleteVictimObject
        refine Program.Spec.bind (Program.spec_query Fewer.refl fun w₂ _ kept₂ _ => ?_)
        dsimp only
        split
        · exact kept₂
        split
        · exact kept₂
        · rename_i alone _
          refine Program.Spec.bind (Program.spec_exec fun w₃ fewer kept₃ unserved => ?_)
          have after := Kept.deleteObject kept₃ indexed (ok victim List.mem_cons_self) fewer
            (not_not.mp alone) unserved
          exact ⟨after, Fewer.refl w₃, after⟩
      refine Program.Spec.bind (object.mono ?_)
      rintro (error | keptObject) w₂ kept₂
      · exact kept₂
      refine Program.Spec.bind ?_
      intro w₃ _ kept₃ _
      obtain ⟨after, fewer⟩ := Kept.deleteRow kept₃ victim
      refine ⟨after, fewer, ?_⟩
      dsimp only [Program.Spec]
      split
      · exact ih okRest _ after
      · exact ih okRest _ after

theorem kept_gc (params : GcParams) {w : World} (kept : Kept packages bucket w) :
    (handleGc params).Spec (keptContract packages bucket) w fun _ w' => Kept packages bucket w' := by
  have prune : ∀ (event : Event) (write : Db → Db), (∀ db : Db, db.SameServed (write db)) →
      ∀ {w : World}, Kept packages bucket w →
      (D1.exec event write).Spec (keptContract packages bucket) w fun _ w' =>
        Fewer w w' ∧ Kept packages bucket w' :=
    fun _ _ leaves _ kept => kept_of_only (Program.Only.exec fun now => ⟨_, rfl, leaves now.db⟩) kept
  refine Program.Spec.bind ((kept_of_only (retainRings_only sameServed_read _ _ _) kept).mono ?_)
  rintro (error | retained) w₁ ⟨-, kept₁⟩
  · exact kept₁
  refine Program.Spec.bind (Program.spec_query Fewer.refl fun w₂ _ kept₂ _ => ?_)
  refine Program.Spec.bind ((prune _ (·.pruneRows retained.keptCheckpoints)
    (fun _ => ⟨rfl, rfl, rfl⟩) kept₂).mono ?_)
  rintro (error | ⟨⟩) w₃ ⟨-, kept₃⟩
  · exact kept₃
  refine Program.Spec.bind ((prune _ (·.pruneFlags retained.keptCheckpoints)
    (fun _ => ⟨rfl, rfl, rfl⟩) kept₃).mono ?_)
  rintro (error | ⟨⟩) w₄ ⟨-, kept₄⟩
  · exact kept₄
  refine Program.Spec.bind ((kept_of_only (pruneRingDeltas_only
    (fun _ _ now => ⟨_, rfl, rfl, rfl, rfl⟩) _) kept₄).mono ?_)
  rintro (error | ⟨⟩) w₅ ⟨-, kept₅⟩
  · exact kept₅
  refine kept_deleteVictims indexed _ ?_ _ kept₅
  -- The victims were rows of the index when they were listed.
  intro v member
  have listed : v ∈ w₂.db.unreferenced retained params.cutoff := by
    unfold sliceTo at member
    split at member
    · exact List.mem_of_mem_take member
    · exact List.mem_of_mem_take member
  rw [Db.unreferenced, List.mem_insertionSort] at listed
  exact indexed v (kept₂.rows v (List.mem_filter.mp listed).1)

/-- Any number of requests and GC runs at once: where an object goes only while no ring serves
its victim, and a batch takes only packages that have their row and their object, no ring
serves a package that has lost either. -/
theorem served_of_unclaimed {config : Config World Job Event Failure (Option Created)}
    (reached : Reachable Job.serve (Unclaimed bucket) (World.fresh packages bucket) config) :
    ∀ ring, ∀ id ∈ config.store.db.ringPackages ring,
      ∃ p ∈ config.store.db.packages, p.id = id ∧
        ((bucket p.key).isSome = true → (config.store.db.bucket p.key).isSome = true) := by
  have served : ∀ job w, Kept packages bucket w → (Job.serve job).Spec (keptContract packages bucket) w
      fun _ _ => True := by
    intro job w kept
    cases job with
    | gc params =>
        refine Program.Spec.bind ((kept_gc indexed params kept).mono ?_)
        rintro (error | report) _ _ <;> trivial
    | create body =>
        refine Program.Spec.bind ((kept_create body kept).mono ?_)
        rintro (error | created) _ _ <;> trivial
  obtain ⟨kept, -⟩ := reachable_spec (keptContract packages bucket) (fun _ _ _ => True) Fewer.refl
    (fun _ _ _ => Fewer.trans) (fun _ _ h => h) (Kept.fresh packages bucket) served reached
  intro ring id member
  obtain ⟨p, inTable, sameId, there⟩ := Kept.whole kept ring id member
  refine ⟨p, inTable, sameId, fun held => ?_⟩
  simpa [Db.lost, held, Option.isSome_iff_ne_none] using there

end Requests

/-! ## Two runs -/

/-- Two old packages, each with its object. -/
def takenPackages : List Package := [.sample 1 'a' "core" "bash", .sample 2 'b' "core" "curl"]

def takenBucket (key : String) : Option Blob :=
  if takenPackages.any (·.key == key) then some ⟨1, ∅, none⟩ else none

def takeBash : CreateRelease := { ring := "edge", add := [Package.sampleHash 'a'] }

/-- Edge takes bash while GC lists curl, and GC deletes curl. -/
def apartRun : List (Move Job) :=
  .spawn (.create takeBash) :: List.replicate 5 (.run 0) ++
    .spawn (.gc { cutoff := 1 }) :: List.replicate 7 (.run 1) ++ List.replicate 5 (.run 0) ++
    List.replicate 7 (.run 1)

theorem served_of_apartRun :
    ∃ config : Config World Job Event Failure (Option Created),
      Reachable Job.serve (Unclaimed takenBucket) (World.fresh takenPackages takenBucket) config ∧
      config.store.db.ringPackages .edge = {1} ∧ config.store.db.packages.map (·.id) = [1] ∧
      ∀ ring, ∀ id ∈ config.store.db.ringPackages ring,
        ∃ p ∈ config.store.db.packages, p.id = id ∧
          ((takenBucket p.key).isSome = true → (config.store.db.bucket p.key).isSome = true) :=
  have reached := reachable_moves Job.serve (Unclaimed takenBucket)
    (World.fresh takenPackages takenBucket) apartRun (by decide)
  ⟨_, reached, by decide, by decide, served_of_unclaimed (by decide) reached⟩

/-- Both packages are victims.  GC has asked of the first whether it is served, and whether it
shares its object, when edge takes it; then its object goes. -/
def takenBackRun : List (Move Job) :=
  .spawn (.gc { cutoff := 1 }) :: List.replicate 9 (.run 0) ++
    .spawn (.create takeBash) :: List.replicate 5 (.run 1) ++ [.run 0]

/-- Edge serves bash, and its object is gone. -/
theorem takenBack_loses_object :
    ¬ ∀ (packages : List Package) (bucket : String → Option Blob), (∀ p ∈ packages, p.indexed = true) →
      ∀ config : Config World Job Event Failure (Option Created),
      Reachable Job.serve Unrestricted (World.fresh packages bucket) config →
      ∀ ring, ∀ id ∈ config.store.db.ringPackages ring,
        ∃ p ∈ config.store.db.packages, p.id = id ∧
          ((bucket p.key).isSome = true → (config.store.db.bucket p.key).isSome = true) := by
  intro law
  have reached := reachable_moves Job.serve Unrestricted (World.fresh takenPackages takenBucket)
    takenBackRun (by decide)
  have whole := law takenPackages takenBucket (by decide) _ reached .edge 1 (by decide)
  exact absurd whole (by decide)

end OmarchyPool
