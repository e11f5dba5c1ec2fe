/-
# OmarchyPool.Objects -- every package row has its object

A row names its object by its key, and GC deletes the object of a victim with its row.
Two things keep it from taking the object of another row: the count of other rows that name
the key, which looks only among the rows of the victim's filename, and the form of the keys.
Every key ends in `/` and the filename, so rows of one key have one filename
(`filename_of_key`); and a filename ends in `.zst` or `.xz`, so no row's key is that of
another's signature or provenance (`key_ne_sidecar`).
-/
import OmarchyPool.Exact
import OmarchyPool.Lib.Separator

namespace OmarchyPool

open Lib

set_option autoImplicit false

/-! ## Keys -/

namespace Package

/-- A row as the pool indexes it: its archive was uploaded under a name that `FILENAME_RE`
accepts, and its key is one of the three forms a key has had. -/
def indexed (p : Package) : Bool :=
  isFilename p.filename &&
    [p.repoArch.name ++ "/" ++ p.filename,
      p.source ++ "/" ++ p.repoArch.name ++ "/" ++ p.filename,
      "ghost/" ++ p.source ++ "/" ++ p.repoArch.name ++ "/" ++ p.filename].contains p.key

end Package

/-- A filename has no slash and ends in one of the two extensions. -/
theorem filename_shape {filename : String} (ok : isFilename filename = true) :
    '/' ∉ filename.toList ∧
      (filename.toList.getLast? = some 't' ∨ filename.toList.getLast? = some 'z') := by
  simp only [isFilename, List.any_eq_true, Option.any_eq_true, Bool.and_eq_true] at ok
  obtain ⟨arch, inArches, ext, inExts, stem, stripped, -, chars⟩ := ok
  rw [of_stripSuffix stripped]
  have noSlash : '/' ∉ stem := by
    intro slash
    have := List.all_eq_true.mp chars '/' slash
    revert this
    decide
  have tails : ∀ arch ∈ ["-x86_64", "-aarch64", "-any"], ∀ ext ∈ [".pkg.tar.zst", ".pkg.tar.xz"],
      '/' ∉ arch.toList ++ ext.toList ∧ ((arch.toList ++ ext.toList).getLast? = some 't' ∨
        (arch.toList ++ ext.toList).getLast? = some 'z') := by
    decide
  obtain ⟨noSlash', last⟩ := tails arch inArches ext inExts
  refine ⟨?_, ?_⟩
  · rw [List.mem_append]
    exact fun h => h.elim noSlash noSlash'
  · rw [List.getLast?_append]
    rcases last with last | last <;> simp [last]

namespace Package

variable {p q : Package}

theorem key_form (ok : p.indexed = true) : ∃ dir, p.key.toList = dir ++ '/' :: p.filename.toList := by
  simp only [indexed, Bool.and_eq_true, List.contains_eq_mem, List.mem_cons, List.not_mem_nil, or_false,
    decide_eq_true_eq] at ok
  rcases ok.2 with key | key | key
  · exact ⟨p.repoArch.name.toList, by simp [key]⟩
  · exact ⟨(p.source ++ "/" ++ p.repoArch.name).toList, by simp [key]⟩
  · exact ⟨("ghost/" ++ p.source ++ "/" ++ p.repoArch.name).toList, by simp [key]⟩

theorem shape (ok : p.indexed = true) : '/' ∉ p.filename.toList ∧
    (p.filename.toList.getLast? = some 't' ∨ p.filename.toList.getLast? = some 'z') := by
  simp only [indexed, Bool.and_eq_true] at ok
  exact filename_shape ok.1

theorem filename_of_key (ok : p.indexed = true) (ok' : q.indexed = true) (same : p.key = q.key) :
    p.filename = q.filename := by
  obtain ⟨dir, form⟩ := key_form ok
  obtain ⟨dir', form'⟩ := key_form ok'
  rw [same, form'] at form
  exact String.toList_injective (split_last (shape ok).1 (shape ok').1 form.symm).2

theorem key_ne_sidecar (ok : p.indexed = true) {suffix : String}
    (isSidecar : suffix ∈ [".sig", ".provenance.json", ".provenance.json.sig"]) :
    p.key ≠ q.key ++ suffix := by
  intro same
  obtain ⟨dir, form⟩ := key_form ok
  have ends : p.key.toList.getLast? = p.filename.toList.getLast? := by
    rw [form, List.getLast?_append]
    rcases (shape ok).2 with last | last <;> simp [List.getLast?_cons, last]
  have sidecar : ∀ suffix ∈ [".sig", ".provenance.json", ".provenance.json.sig"],
      suffix.toList.getLast? = some 'g' ∨ suffix.toList.getLast? = some 'n' := by
    decide
  have ends' : p.key.toList.getLast? = some 'g' ∨ p.key.toList.getLast? = some 'n' := by
    rw [same, String.toList_append, List.getLast?_append]
    rcases sidecar suffix isSidecar with last | last <;> simp [last]
  rw [ends] at ends'
  rcases (shape ok).2 with last | last <;> rcases ends' with last' | last' <;>
    · rw [last] at last'
      revert last'
      decide

end Package

/-! ## Deleting a victim -/

/-- Every row was indexed as the pool indexes, and has its object unless it is a ghost. -/
structure Stored (db : Db) : Prop where
  indexed : ∀ p ∈ db.packages, p.indexed = true
  objects : ∀ p ∈ db.packages, p.ghost = false → (db.bucket p.key).isSome = true

/-- The object of a victim no other row names, and then its row. -/
theorem Stored.delete {db : Db} (stored : Stored db) {victim : Package} (ok : victim.indexed = true)
    (alone : db.sharedRows victim = 0) :
    Stored { db.deleteObject victim with packages := db.packages.filter (·.id != victim.id) } := by
  refine ⟨fun p member => stored.indexed p (List.mem_filter.mp member).1, ?_⟩
  intro p member real
  obtain ⟨inTable, other⟩ := List.mem_filter.mp member
  have okP := stored.indexed p inTable
  have apart : p.key ≠ victim.key := by
    intro same
    have counted : p ∈ db.packages.filter fun q =>
        q.filename == victim.filename && q.id != victim.id && q.key == victim.key := by
      rw [List.mem_filter]
      exact ⟨inTable, by simp [Package.filename_of_key okP ok same, same]; simpa using other⟩
    exact absurd (List.length_eq_zero_iff.mp alone) (List.ne_nil_of_mem counted)
  have unlisted : p.key ∉ [victim.key, victim.key ++ ".sig", victim.key ++ ".provenance.json",
      victim.key ++ ".provenance.json.sig"] := by
    simp only [List.mem_cons, List.not_mem_nil, or_false, not_or]
    exact ⟨apart, Package.key_ne_sidecar okP (by simp), Package.key_ne_sidecar okP (by simp),
      Package.key_ne_sidecar okP (by simp)⟩
  simp only [Db.deleteObject, if_neg unlisted]
  exact stored.objects p inTable real

theorem Stored.fewer {db db' : Db} (stored : Stored db) (bucket : db'.bucket = db.bucket)
    (fewer : ∀ p ∈ db'.packages, p ∈ db.packages) : Stored db' :=
  ⟨fun p member => stored.indexed p (fewer p member), fun p member real => by
    rw [bucket]
    exact stored.objects p (fewer p member) real⟩

/-- Alone, the probe holds until the row is deleted: a victim's object never goes without
its row. -/
theorem deleteVictims_stored (victims : List Package) (ok : ∀ v ∈ victims, v.indexed = true)
    (report : GcReport) {w : World} (stored : Stored w.db) :
    (deleteVictims victims report).Spec (.alone World Event) w fun _ w' => Stored w'.db := by
  induction victims generalizing report w with
  | nil => exact stored
  | cons victim rest ih =>
      have okRest : ∀ v ∈ rest, v.indexed = true := fun v member => ok v (List.mem_cons_of_mem _ member)
      unfold deleteVictims
      refine Program.Spec.bind (Program.alone_query ?_)
      dsimp only
      split
      · exact ih okRest _ stored
      rename_i unserved
      rw [Bool.not_eq_true] at unserved
      -- Up to its row, the victim's object went only if no other row names it.
      have object : (deleteVictimObject victim).Spec (.alone World Event) w fun result w' =>
          (∃ kept, result = .ok kept) ∧ w'.db.served victim.id = false ∧
            Stored (w'.db.deleteRow victim) := by
        have rowOnly : Stored (w.db.deleteRow victim) := by
          rw [Db.deleteRow, unserved, if_neg (by simp)]
          exact stored.fewer rfl fun p member => (List.mem_filter.mp member).1
        unfold deleteVictimObject
        refine Program.Spec.bind (Program.alone_query ?_)
        dsimp only
        split
        · exact ⟨⟨_, rfl⟩, unserved, rowOnly⟩
        split
        · exact ⟨⟨_, rfl⟩, unserved, rowOnly⟩
        · rename_i alone _
          refine Program.Spec.bind (Program.alone_exec ⟨⟨_, rfl⟩, unserved, ?_⟩)
          have still : (w.db.deleteObject victim).served victim.id = false := unserved
          rw [World.commit_db, Db.deleteRow, still, if_neg (by simp)]
          exact stored.delete (ok victim List.mem_cons_self) (not_not.mp alone)
      refine Program.Spec.bind (object.mono ?_)
      rintro result w₁ ⟨⟨kept, rfl⟩, -, deleted⟩
      refine Program.Spec.bind (Program.alone_iff.mpr ?_)
      dsimp only [D1.returning, Program.run]
      split
      · exact ih okRest _ deleted
      · exact ih okRest _ deleted

end OmarchyPool
