/-
# OmarchyPool.Jobs -- releases and garbage collection at once

Requests to create a release and GC runs, any number of them in flight, a statement of one
between any two of another.  `Collects` lists what a GC run can do to the index: it reads,
prunes rows, flags and deltas, and deletes objects and rows of packages.  Nothing in it
depends on what it read, so a contract that allows these statements is kept by every GC run,
however stale its victims (`gc_only`).

`Follows` is what every request may rely on: releases made so far stay as they are, a ring's
releases grow at the end, and the table stays ordered.
-/
import OmarchyPool.Lineage
import OmarchyPool.Rebuild

namespace OmarchyPool

open Lib

set_option autoImplicit false

inductive Job where
  | create (body : CreateRelease)
  | gc (params : GcParams)
deriving DecidableEq

/-- A GC run answers with a report the runs below do not look at. -/
def Job.serve : Job → Handler (Option Created)
  | .create body => do
      let created ← handleCreateRelease body
      pure (some created)
  | .gc params => do
      let _ ← handleGc params
      pure none

/-! ## What a GC run does -/

/-- The statements of a GC run. -/
inductive Collects : Event → (World → World) → Prop where
  | read (event : Event) : Collects event id
  | pruneRows (kept : List ReleaseId) :
      Collects (.pruneRows kept) fun w => w.commit (w.db.pruneRows kept)
  | pruneFlags (kept : List ReleaseId) :
      Collects (.pruneFlags kept) fun w => w.commit (w.db.pruneFlags kept)
  | pruneDeltas (ring : Ring) (seq : Nat) :
      Collects (.pruneDeltas ring seq) fun w => w.commit (w.db.pruneDeltas ring seq)
  | deleteObject (victim : Package) :
      Collects (.deleteObject victim) fun w => w.commit (w.db.deleteObject victim)
  | deleteRow (victim : Package) :
      Collects (.deleteRow victim) fun w => w.commit (w.db.deleteRow victim)

section Reading

variable {allowed : Event → (World → World) → Prop} (reads : ∀ event, allowed event id)
include reads

theorem reads_query {α : Type} (event : Event) (read : Db → α) :
    (D1.query event read).Only allowed := Program.Only.query (reads event)

theorem carriedSince_only (ring : Ring) (head : Release) (arches : List Arch) (since : Option Nat) :
    (carriedSince ring head arches since).Only allowed := by
  induction arches generalizing since with
  | nil => trivial
  | cons arch rest ih =>
      unfold carriedSince
      exact (reads_query reads _ _).bind fun _ => ih _

theorem protectedRows_only (keep : Nat) (ring : Ring) : (protectedRows keep ring).Only allowed := by
  unfold protectedRows
  refine (reads_query reads _ _).bind fun rows => ?_
  split
  · refine (reads_query reads _ _).bind fun arches =>
      (carriedSince_only reads _ _ _ _).bind fun since => ?_
    cases since with
    | none => trivial
    | some since =>
        dsimp only
        split
        · exact (reads_query reads _ _).bind fun _ => trivial
        · trivial
  · trivial

theorem retainRings_only (keep : Nat) (todo : List Ring) (acc : Retained) :
    (retainRings keep todo acc).Only allowed := by
  induction todo generalizing acc with
  | nil => trivial
  | cons ring rest ih =>
      refine Program.Only.bind ?_ fun acc => ih acc
      refine (protectedRows_only reads keep ring).bind fun rows => ?_
      dsimp only
      split
      · trivial
      · refine (reads_query reads _ _).bind fun base => ?_
        cases base <;> trivial

end Reading

theorem pruneRingDeltas_only {allowed : Event → (World → World) → Prop}
    (prunes : ∀ ring seq, allowed (.pruneDeltas ring seq) fun w => w.commit (w.db.pruneDeltas ring seq))
    (list : List (Ring × Nat)) : (pruneRingDeltas list).Only allowed := by
  induction list with
  | nil => trivial
  | cons entry rest ih => exact (Program.Only.exec (prunes entry.1 entry.2)).bind fun _ => ih

theorem deleteVictims_only (victims : List Package) (report : GcReport) :
    (deleteVictims victims report).Only Collects := by
  induction victims generalizing report with
  | nil => trivial
  | cons victim rest ih =>
      unfold deleteVictims
      refine (reads_query .read _ _).bind fun served => ?_
      split
      · exact ih _
      · refine Program.Only.bind ?_ fun kept => ?_
        · unfold deleteVictimObject
          refine (reads_query .read _ _).bind fun shared => ?_
          split
          · trivial
          split
          · trivial
          · exact (Program.Only.exec (.deleteObject victim)).bind fun _ => trivial
        · refine Program.Only.bind ⟨.deleteRow victim, fun _ => trivial⟩ fun gone => ?_
          dsimp only
          split <;> exact ih _

theorem gc_only (params : GcParams) : (handleGc params).Only Collects :=
  (retainRings_only .read _ _ _).bind fun kept => (reads_query .read _ _).bind fun _ =>
    (Program.Only.exec (.pruneRows kept.keptCheckpoints)).bind fun _ =>
      (Program.Only.exec (.pruneFlags kept.keptCheckpoints)).bind fun _ =>
        (pruneRingDeltas_only .pruneDeltas _).bind fun _ => deleteVictims_only _ _

/-! ## What every request may rely on -/

structure Follows (w w' : World) : Prop where
  keeps : Keeps w w'
  grown : Grown w w'
  ordered : w.db.Ordered → w'.db.Ordered

namespace Follows

theorem refl (w : World) : Follows w w := ⟨Keeps.refl w, Grown.refl w, id⟩

theorem trans {a b d : World} (first : Follows a b) (second : Follows b d) : Follows a d :=
  ⟨first.keeps.trans second.keeps, first.grown.trans second.grown,
    fun ordered => second.ordered (first.ordered ordered)⟩

theorem same {w : World} {db : Db} (same : w.db.SameReleases db) : Follows w (w.commit db) :=
  ⟨Keeps.same same, Grown.same same, same.ordered⟩

theorem create {w : World} (ordered : w.db.Ordered) {b : CreateBatch}
    (next : b.seq = (w.db.ofRing b.ring).length + 1) : Follows w (w.commit (w.db.applyRelease b)) :=
  ⟨Keeps.create ordered b, Grown.create w b, fun _ => ordered.applyRelease next⟩

/-- A release that is a head and is one later was one all along. -/
theorem head_between {a b d : World} (first : Follows a b) (second : Follows b d)
    (ordered : a.db.Ordered) {ring ring' : Ring} {id : ReleaseId} (head : a.db.ringHeads ring = some id)
    (head' : d.db.ringHeads ring' = some id) : b.db.ringHeads ring = some id := by
  have orderedB := first.ordered ordered
  have orderedD := second.ordered orderedB
  obtain ⟨r, member, sameId, seq⟩ := ordered.head_row head
  obtain ⟨r', member', sameId', seq'⟩ := orderedD.head_row head'
  -- The row is the same one, so no release of its ring came after it.
  obtain ⟨row, rowMember, eq⟩ := (first.trans second).keeps.known r
    (Known.of_mem (Db.mem_ofRing.mp member).1)
  obtain rfl : row = r' := orderedD.eq_of_id rowMember (Db.mem_ofRing.mp member').1
    ((Release.id_eq eq).trans (sameId.trans sameId'.symm))
  have sameRing : ring' = ring := by
    rw [← (Db.mem_ofRing.mp member').2, ← (Db.mem_ofRing.mp member).2]
    exact Release.ring_eq eq
  subst sameRing
  have lengths := first.grown.length_le ring'
  have lengths' := second.grown.length_le ring'
  have sameSeq := Release.seq_eq eq
  rw [first.grown.head_eq ordered orderedB (by omega)]
  exact head

end Follows

theorem sameReleases_collects {event : Event} {write : World → World} (collects : Collects event write)
    (w : World) : ∃ db, write w = w.commit db ∧ w.db.SameReleases db ∧
      db.ringPackages = w.db.ringPackages := by
  cases collects with
  | read => exact ⟨w.db, (World.commit_self w).symm, .refl _, rfl⟩
  | pruneRows kept => exact ⟨_, rfl, ⟨rfl, rfl, rfl⟩, rfl⟩
  | pruneFlags kept => exact ⟨_, rfl, Db.sameReleases_pruneFlags _ _, rfl⟩
  | pruneDeltas ring seq => exact ⟨_, rfl, ⟨rfl, rfl, rfl⟩, rfl⟩
  | deleteObject victim => exact ⟨_, rfl, ⟨rfl, rfl, rfl⟩, rfl⟩
  | deleteRow victim =>
      refine ⟨_, rfl, ?_, ?_⟩ <;> unfold Db.deleteRow <;> split
      · exact .refl _
      · exact ⟨rfl, rfl, rfl⟩
      · rfl
      · rfl

end OmarchyPool
