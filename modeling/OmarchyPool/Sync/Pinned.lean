/-
# OmarchyPool.Sync.Pinned -- what a run indexes, pins and removes

The run taken apart: the packages it keeps of upstream, what it classifies, what its imports make of the index
(`Grown`), and the selection it asks for, each by what it has as members.  A run pins what the index has of the kept
packages once the imports are done and, in the place of a package that collides, the object stored under its filename
(`mem_add`); it removes its own rows of names it does not keep (`removes_iff`).
-/
import Mathlib.Data.List.MinMax
import OmarchyPool.Lib.Sorting
import OmarchyPool.OwnBase
import OmarchyPool.Sync.Run

namespace OmarchyPool.Sync

open OmarchyPool.Lib

set_option autoImplicit false

/-! ## The parts of a run -/

section Parts

variable (opts : SyncOptions) (imports : UpstreamPackage → Except String Manifest) (upstream : List UpstreamPackage)
  (db : Db)

/-- What upstream lists without the names other sources win. -/
def keptOf : List UpstreamPackage := yieldToOtherSources upstream (releaseSummaryOf db opts.ring) opts

def classified : Classified := classifyUpstream db (keptOf opts upstream db) opts

def importedBy : Db × List UpstreamPackage × List (String × String) :=
  importAll opts imports (withinLimit opts (classified opts upstream db).missing) db

/-- The selection a run asks for. -/
def selected : Selection :=
  selectionOf (keptOf opts upstream db) (releaseSummaryOf db opts.ring) opts (classified opts upstream db)
    (importedBy opts imports upstream db).2.1

/-- The rows of the ring that are this source's to keep or drop. -/
def Mine (q : Package) : Prop := q.source = opts.source ∧ q.repoArch = opts.arch

instance (q : Package) : Decidable (Mine opts q) := inferInstanceAs (Decidable (_ ∧ _))

end Parts

section Run

variable {opts : SyncOptions} {imports : UpstreamPackage → Except String Manifest} {upstream : List UpstreamPackage}
  {db : Db}

/-! ## What the parts are made of -/

theorem mem_keptOf_sub {p : UpstreamPackage} (kept : p ∈ keptOf opts upstream db) : p ∈ upstream := by
  unfold keptOf yieldToOtherSources at kept
  split at kept
  · exact kept
  · exact (List.mem_filter.mp kept).1

theorem mem_headRows (well : db.WellIndexed) {q : Package} :
    q ∈ (releaseSummaryOf db opts.ring).getD [] ↔ q ∈ db.ringRows opts.ring := by
  rw [mem_ringRows]
  unfold releaseSummaryOf
  cases head : db.ringHeads opts.ring with
  | none =>
      rw [well.idle opts.ring head]
      simp [Db.ringHead, head]
  | some id =>
      obtain ⟨r, member, sameId, -⟩ := well.ordered.head_row head
      have isHead : db.ringHead opts.ring = some r := by
        rw [Db.ringHead, head, Option.bind_some, well.ordered.release?_eq_some]
        exact ⟨(Db.mem_ofRing.mp member).1, sameId⟩
      rw [isHead, Option.map_some, Option.getD_some, Db.mem_rowsInOrder]
      simp

theorem mem_keptOf (well : db.WellIndexed) {p : UpstreamPackage} :
    p ∈ keptOf opts upstream db ↔ p ∈ upstream ∧
      ∀ q ∈ db.ringRows opts.ring, q.repoArch = opts.arch → q.source ∈ opts.deferTo → q.name ≠ p.name := by
  unfold keptOf yieldToOtherSources
  split
  · rename_i nobody
    have empty : opts.deferTo = [] := List.isEmpty_iff.mp nobody
    simp [empty]
  · rw [List.mem_filter, ownedElsewhere]
    refine and_congr_right fun _ => ?_
    simp only [Bool.not_eq_true', ← Bool.not_eq_true, List.contains_iff_mem, List.mem_map, List.mem_filter,
      mem_headRows well, Bool.and_eq_true, beq_iff_eq]
    constructor
    · intro free q inRing arch wins same
      exact free ⟨q, ⟨inRing, arch, wins⟩, same⟩
    · rintro free ⟨q, ⟨inRing, arch, wins⟩, same⟩
      exact free q inRing arch wins same

theorem indexed_iff {sha : String} {arch : Arch} :
    indexed db sha arch = true ↔ ∃ q ∈ db.packages, q.sha256 = sha ∧ q.repoArch = arch := by
  simp only [indexed, List.any_eq_true, Bool.and_eq_true, beq_iff_eq]

theorem mem_known {sha : String} : sha ∈ (classified opts upstream db).known ↔
    (∃ p ∈ keptOf opts upstream db, p.sha256 = sha) ∧ indexed db sha opts.arch = true := by
  simp only [classified, classifyUpstream, List.mem_filter, List.mem_map]

/-- The rows a filename is looked up in. -/
def storedRows (db : Db) (opts : SyncOptions) (filename : String) : List Package :=
  db.packages.filter fun q => q.source == opts.source && q.repoArch == opts.arch && q.filename == filename && !isGhost q

theorem mem_storedRows {filename : String} {q : Package} (stored : q ∈ storedRows db opts filename) :
    q ∈ db.packages ∧ Mine opts q ∧ q.filename = filename := by
  simp only [storedRows, List.mem_filter, Bool.and_eq_true, beq_iff_eq] at stored
  obtain ⟨inTable, ⟨⟨isSource, isArch⟩, isFile⟩, -⟩ := stored
  exact ⟨inTable, ⟨isSource, isArch⟩, isFile⟩

theorem byFilename_some {filename sha : String} (found : byFilename db opts.source opts.arch filename = some sha) :
    ∃ q ∈ storedRows db opts filename, q.sha256 = sha := by
  unfold byFilename at found
  split at found
  · obtain ⟨q, first, rfl⟩ := Option.map_eq_some_iff.mp found
    exact ⟨q, (List.mem_insertionSort _).mp (List.mem_of_head? first), rfl⟩
  · cases found

/-- A filename some package's lookup could find, and does not, is no row's. -/
theorem byFilename_none {filename sha : String} {db' : Db} (found : byFilename db' opts.source opts.arch filename = some sha)
    (none_ : byFilename db opts.source opts.arch filename = none) : storedRows db opts filename = [] := by
  have short : filename.length < 300 := by
    unfold byFilename at found
    split at found
    · assumption
    · cases found
  unfold byFilename at none_
  rw [if_pos short, Option.map_eq_none_iff, List.head?_eq_none_iff] at none_
  exact List.Perm.nil_eq (none_ ▸ (List.perm_insertionSort _ _)) |>.symm

theorem mem_reuse {sha : String} : sha ∈ (classified opts upstream db).reuse ↔
    ∃ p ∈ keptOf opts upstream db, collision db opts p = some sha := by
  simp only [classified, classifyUpstream, List.mem_filterMap]

theorem collision_some {p : UpstreamPackage} {sha : String} :
    collision db opts p = some sha ↔ byFilename db opts.source opts.arch p.filename = some sha ∧ sha ≠ p.sha256 := by
  simp [collision, Option.filter_eq_some_iff]

/-- A filename is among the collisions as soon as one package of that filename collides. -/
theorem mem_colliding {filename : String} : filename ∈ (classified opts upstream db).collisions.map (·.1) ↔
    ∃ p ∈ keptOf opts upstream db, p.filename = filename ∧ (collision db opts p).isSome := by
  simp only [classified, classifyUpstream, List.map_map, List.mem_map, List.mem_filter, Function.comp_apply]
  constructor
  · rintro ⟨p, ⟨kept, collides⟩, same⟩
    exact ⟨p, kept, same, collides⟩
  · rintro ⟨p, kept, same, collides⟩
    exact ⟨p, ⟨kept, collides⟩, same⟩

theorem mem_missing {p : UpstreamPackage} : p ∈ (classified opts upstream db).missing ↔
    p ∈ keptOf opts upstream db ∧ indexed db p.sha256 opts.arch = false ∧
      p.filename ∉ (classified opts upstream db).collisions.map (·.1) := by
  have known : (classified opts upstream db).known.contains p.sha256 = true ↔
      p.sha256 ∈ (classified opts upstream db).known := List.contains_iff_mem
  have listed : p ∈ (classified opts upstream db).missing ↔ p ∈ keptOf opts upstream db ∧
      ¬ p.sha256 ∈ (classified opts upstream db).known ∧
        p.filename ∉ (classified opts upstream db).collisions.map (·.1) := by
    rw [← known]
    simp only [classified, classifyUpstream, List.mem_filter, Bool.and_eq_true, Bool.not_eq_true', ← Bool.not_eq_true,
      List.contains_iff_mem]
  rw [listed, mem_known]
  constructor
  · rintro ⟨kept, unknown, free⟩
    refine ⟨kept, ?_, free⟩
    rw [← Bool.not_eq_true]
    exact fun isIndexed => unknown ⟨⟨p, kept, rfl⟩, isIndexed⟩
  · rintro ⟨kept, unknown, free⟩
    refine ⟨kept, ?_, free⟩
    rintro ⟨-, isIndexed⟩
    rw [unknown] at isIndexed
    cases isIndexed

theorem mem_withinLimit {missing : List UpstreamPackage} {p : UpstreamPackage} (member : p ∈ withinLimit opts missing) :
    p ∈ missing := by
  unfold withinLimit at member
  split at member
  · exact List.mem_of_mem_take member
  · exact member

/-! ## The imports -/

theorem importAll_done (missing : List UpstreamPackage) (db : Db) :
    (importAll opts imports missing db).2.1 = missing.filter fun p => (imports p).toOption.isSome := by
  induction missing generalizing db with
  | nil => rfl
  | cons p rest ih =>
      cases result : imports p with
      | ok m =>
          have here : (imports p).toOption.isSome = true := by rw [result]; rfl
          rw [List.filter_cons, if_pos here, ← ih (postPackage db opts.source opts.arch p m)]
          simp only [importAll, result]
      | error why =>
          have here : ¬ (imports p).toOption.isSome = true := by rw [result]; exact Bool.false_ne_true
          rw [List.filter_cons, if_neg here, ← ih db]
          simp only [importAll, result]

/-- What every package indexed keeps, a run's imports keep. -/
theorem importAll_keeps {inv : Db → Prop} {missing : List UpstreamPackage}
    (step : ∀ p ∈ missing, ∀ m, imports p = .ok m → ∀ db, inv db → inv (postPackage db opts.source opts.arch p m))
    {db : Db} (holds : inv db) : inv (importAll opts imports missing db).1 := by
  induction missing generalizing db with
  | nil => exact holds
  | cons p rest ih =>
      have later := fun q member => step q (List.mem_cons_of_mem _ member)
      cases result : imports p with
      | ok m =>
          have indexed := step p List.mem_cons_self m result db holds
          simpa only [importAll, result] using ih later indexed
      | error why => simpa only [importAll, result] using ih later holds

theorem importAll_failed {missing : List UpstreamPackage} {db : Db}
    (failed : ∀ p ∈ missing, (imports p).toOption.isSome = false) : (importAll opts imports missing db).1 = db := by
  induction missing with
  | nil => rfl
  | cons p rest ih =>
      have here := failed p List.mem_cons_self
      cases result : imports p with
      | ok m =>
          rw [result] at here
          cases here
      | error why => simpa only [importAll, result] using ih fun q member => failed q (List.mem_cons_of_mem _ member)

theorem importAll_indexed {missing : List UpstreamPackage} {p : UpstreamPackage} (member : p ∈ missing)
    (got : (imports p).toOption.isSome = true) (db : Db) :
    indexed (importAll opts imports missing db).1 p.sha256 opts.arch = true := by
  have keeps : ∀ q ∈ missing, ∀ m, imports q = .ok m → ∀ db, indexed db p.sha256 opts.arch = true →
      indexed (postPackage db opts.source opts.arch q m) p.sha256 opts.arch = true := by
    intro q _ m _ db known
    unfold postPackage
    split
    · exact known
    · obtain ⟨row, inTable, isRow⟩ := indexed_iff.mp known
      exact indexed_iff.mpr ⟨row, List.mem_append_left _ inTable, isRow⟩
  induction missing generalizing db with
  | nil => cases member
  | cons q rest ih =>
      have later := fun q member => keeps q (List.mem_cons_of_mem _ member)
      rcases List.mem_cons.mp member with rfl | inRest
      · cases result : imports p with
        | ok m =>
            have here : indexed (postPackage db opts.source opts.arch p m) p.sha256 opts.arch = true := by
              unfold postPackage
              split
              · assumption
              · exact indexed_iff.mpr ⟨_, List.mem_append_right _ (List.mem_singleton_self _), rfl, rfl⟩
            have after := @importAll_keeps opts imports (indexed · p.sha256 opts.arch = true) rest later _ here
            simpa only [importAll, result] using after
        | error why =>
            rw [result] at got
            cases got
      · cases result : imports q with
        | ok m => simpa only [importAll, result] using ih inRest _ later
        | error why => simpa only [importAll, result] using ih inRest _ later

/-- What the imports of some packages make of an index: rows of this source are appended, and no filename that
stood for an object stands for another. -/
structure Grown (opts : SyncOptions) (imports : UpstreamPackage → Except String Manifest)
    (missing : List UpstreamPackage) (db db' : Db) : Prop where
  same : ∃ packages, db' = { db with packages := packages }
  well : db'.WellIndexed
  old : ∀ q ∈ db.packages, q ∈ db'.packages
  new : ∀ q ∈ db'.packages, q ∈ db.packages ∨ ∃ p ∈ missing, ∃ m, imports p = .ok m ∧ Mine opts q ∧
    q.sha256 = p.sha256 ∧ q.name = m.name ∧ q.filename = p.filename
  stored : ∀ filename sha, byFilename db opts.source opts.arch filename = some sha →
    byFilename db' opts.source opts.arch filename = some sha
  fresh : ∀ filename sha, byFilename db opts.source opts.arch filename = none →
    byFilename db' opts.source opts.arch filename = some sha → ∃ p ∈ missing, p.filename = filename ∧ p.sha256 = sha

theorem id_lt_posted {q : Package} (member : q ∈ db.packages) (p : UpstreamPackage) (m : Manifest) :
    q.id < (postedRow db opts.source opts.arch p m).id :=
  Nat.lt_succ_of_le (List.le_max_of_le (List.mem_map_of_mem member) le_rfl)

theorem wellIndexed_posted (well : db.WellIndexed) {p : UpstreamPackage} (plain : '/' ∉ p.sha256.toList)
    (fresh : indexed db p.sha256 opts.arch = false) (m : Manifest) :
    ({ db with packages := db.packages ++ [postedRow db opts.source opts.arch p m] } : Db).WellIndexed where
  ordered := ⟨well.ordered.ids, well.ordered.fresh, well.ordered.seqs, well.ordered.heads⟩
  distinct := by
    rw [List.map_append, List.map_singleton]
    refine List.nodup_append.mpr ⟨well.distinct, List.nodup_singleton _, ?_⟩
    intro id old new isNew
    obtain ⟨q, member, rfl⟩ := List.mem_map.mp old
    rw [List.mem_singleton.mp isNew]
    exact Nat.ne_of_lt (id_lt_posted member p m)
  oneRow := by
    have apart : ∀ q ∈ db.packages, q.sha256 = p.sha256 → q.repoArch = opts.arch → False := by
      intro q member sha arch
      have known := indexed_iff.mpr ⟨q, member, sha, arch⟩
      rw [fresh] at known
      cases known
    intro q memQ q' memQ' sha arch
    rcases List.mem_append.mp memQ with old | new <;> rcases List.mem_append.mp memQ' with old' | new'
    · exact well.oneRow q old q' old' sha arch
    · rw [List.mem_singleton] at new'
      subst new'
      exact (apart q old sha arch).elim
    · rw [List.mem_singleton] at new
      subst new
      exact (apart q' old' sha.symm arch.symm).elim
    · rw [List.mem_singleton.mp new, List.mem_singleton.mp new']
  plain := by
    intro q member
    rcases List.mem_append.mp member with old | new
    · exact well.plain q old
    · rw [List.mem_singleton.mp new]
      exact plain
  idle := well.idle
  listed := by
    intro ring id inRing
    obtain ⟨q, member, isId⟩ := well.listed ring id inRing
    exact ⟨q, List.mem_append_left _ member, isId⟩

/-! ## The object behind a filename -/

/-- Where no object stood for a filename, the one that does is the one posted. -/
theorem byFilename_posted_fresh {p : UpstreamPackage} {m : Manifest} {filename sha : String}
    (none_ : byFilename db opts.source opts.arch filename = none)
    (found : byFilename { db with packages := db.packages ++ [postedRow db opts.source opts.arch p m] } opts.source
      opts.arch filename = some sha) : p.filename = filename ∧ p.sha256 = sha := by
  have nothing := byFilename_none found none_
  obtain ⟨q, stored, rfl⟩ := byFilename_some found
  obtain ⟨-, -, isFile⟩ := mem_storedRows stored
  unfold storedRows at stored
  rw [List.filter_append, List.mem_append] at stored
  rcases stored with old | new
  · have listed : q ∈ storedRows db opts filename := old
    rw [nothing] at listed
    cases listed
  · have posted := List.mem_singleton.mp (List.mem_filter.mp new).1
    subst posted
    exact ⟨isFile, rfl⟩

/-- The row posted last is the last of its filename, so the one that stood for it stays. -/
theorem byFilename_posted {p : UpstreamPackage} {m : Manifest} {filename sha : String}
    (stored : byFilename db opts.source opts.arch filename = some sha) :
    byFilename { db with packages := db.packages ++ [postedRow db opts.source opts.arch p m] } opts.source opts.arch
      filename = some sha := by
  unfold byFilename at stored ⊢
  split at stored
  · rename_i short
    rw [if_pos short, List.filter_append, List.filter_singleton]
    have rows : storedRows db opts filename ≠ [] := by
      intro none_
      unfold storedRows at none_
      rw [none_] at stored
      cases stored
    have above : ∀ q ∈ storedRows db opts filename, q.id ≤ (postedRow db opts.source opts.arch p m).id :=
      fun q member => (id_lt_posted (List.mem_filter.mp member).1 p m).le
    cases (postedRow db opts.source opts.arch p m).source == opts.source &&
        (postedRow db opts.source opts.arch p m).repoArch == opts.arch &&
          (postedRow db opts.source opts.arch p m).filename == filename && !isGhost (postedRow db opts.source opts.arch p m) with
    | false => simpa only [cond_false, List.append_nil] using stored
    | true =>
        rw [cond_true]
        exact (congrArg _ (head?_insertionSort_append _ above rows)).trans stored
  · cases stored

theorem Grown.refl (well : db.WellIndexed) (missing : List UpstreamPackage) : Grown opts imports missing db db where
  same := ⟨db.packages, rfl⟩
  well := well
  old := fun _ member => member
  new := fun _ member => .inl member
  stored := fun _ _ stored => stored
  fresh := fun _ _ none_ found => by rw [none_] at found; cases found

theorem Grown.post {missing : List UpstreamPackage} {p : UpstreamPackage} (plain : '/' ∉ p.sha256.toList)
    (member : p ∈ missing) {m : Manifest} (got : imports p = .ok m) {db' : Db} (grown : Grown opts imports missing db db') :
    Grown opts imports missing db (postPackage db' opts.source opts.arch p m) := by
  unfold postPackage
  split
  · exact grown
  · rename_i fresh
    obtain ⟨packages, rfl⟩ := grown.same
    refine ⟨⟨_, rfl⟩, wellIndexed_posted grown.well plain (Bool.not_eq_true _ ▸ fresh) m, ?_, ?_, ?_, ?_⟩
    · exact fun q inTable => List.mem_append_left _ (grown.old q inTable)
    · intro q inTable
      rcases List.mem_append.mp inTable with old | new
      · exact grown.new q old
      · rw [List.mem_singleton.mp new]
        exact .inr ⟨p, member, m, got, ⟨rfl, rfl⟩, rfl, rfl, rfl⟩
    · exact fun filename sha stored => byFilename_posted (grown.stored filename sha stored)
    · intro filename sha none_ found
      cases before : byFilename { db with packages := packages } opts.source opts.arch filename with
      | some sha' =>
          have same := (byFilename_posted before).symm.trans found
          rw [← Option.some.inj same]
          exact grown.fresh filename sha' none_ before
      | none => exact ⟨p, member, byFilename_posted_fresh before found⟩

theorem grown_importAll (well : db.WellIndexed) {missing : List UpstreamPackage}
    (plain : ∀ p ∈ missing, '/' ∉ p.sha256.toList) :
    Grown opts imports missing db (importAll opts imports missing db).1 :=
  @importAll_keeps opts imports (Grown opts imports missing db) missing
    (fun _ member _ got _ grown => grown.post (plain _ member) member got) db (.refl well missing)

/-! ## The selection -/

section Selection

variable (well : db.WellIndexed) (plain : ∀ p ∈ upstream, '/' ∉ p.sha256.toList)

theorem mem_tried {p : UpstreamPackage} (tried : p ∈ withinLimit opts (classified opts upstream db).missing) :
    p ∈ keptOf opts upstream db := (mem_missing.mp (mem_withinLimit tried)).1

theorem mem_done {p : UpstreamPackage} : p ∈ (importedBy opts imports upstream db).2.1 ↔
    p ∈ withinLimit opts (classified opts upstream db).missing ∧ (imports p).toOption.isSome = true := by
  rw [importedBy, importAll_done, List.mem_filter]

include well

/-- The rows a run removes are its own, of names the kept part of upstream does not list. -/
theorem removes_iff {note : String} {q : Package} :
    (releaseRequest opts (selected opts imports upstream db) note).Removes (some opts.arch) q ↔
      Mine opts q ∧ q.name ∉ (keptOf opts upstream db).map (·.name) ∧
        ∃ r ∈ db.ringRows opts.ring, Mine opts r ∧ r.name = q.name := by
  unfold CreateRelease.Removes releaseRequest selected selectionOf Mine
  dsimp only
  simp only [List.not_mem_nil, false_or, List.mem_map, List.mem_filter, mem_headRows well, Bool.and_eq_true, beq_iff_eq,
    Bool.not_eq_true', ← Bool.not_eq_true, List.contains_iff_mem, Option.all_some, Prod.mk.injEq]
  constructor
  · rintro ⟨⟨r, ⟨⟨inRing, mine⟩, gone⟩, isSource, isName⟩, isArch⟩
    rw [isName] at gone
    exact ⟨⟨isSource.symm, isArch.symm⟩, gone, r, inRing, mine, isName⟩
  · rintro ⟨⟨isSource, isArch⟩, gone, r, inRing, mine, isName⟩
    rw [← isName] at gone
    exact ⟨⟨r, ⟨⟨inRing, mine⟩, gone⟩, isSource.symm, isName⟩, isArch.symm⟩

theorem unchanged_iff : (selected opts imports upstream db).unchanged = true ↔
    (∀ q ∈ db.ringRows opts.ring, Mine opts q → q.name ∈ (keptOf opts upstream db).map (·.name) ∧
      q.sha256 ∈ (selected opts imports upstream db).add) ∧
    ∀ sha ∈ (selected opts imports upstream db).add, ∃ q ∈ db.ringRows opts.ring, Mine opts q ∧ q.sha256 = sha := by
  have unfolded : (selected opts imports upstream db).unchanged = true ↔
      (∀ q ∈ db.ringRows opts.ring, Mine opts q → q.name ∈ (keptOf opts upstream db).map (·.name)) ∧
      (∀ q ∈ db.ringRows opts.ring, Mine opts q → q.sha256 ∈ (selected opts imports upstream db).add) ∧
      ∀ sha ∈ (selected opts imports upstream db).add, ∃ q ∈ db.ringRows opts.ring, Mine opts q ∧ q.sha256 = sha := by
    have asked : (selected opts imports upstream db).unchanged =
        ((selected opts imports upstream db).remove.isEmpty &&
          ((((releaseSummaryOf db opts.ring).getD []).filter fun q => q.source == opts.source && q.repoArch == opts.arch).map
            (·.sha256)).all ((selected opts imports upstream db).add.contains ·) &&
          (selected opts imports upstream db).add.all
            (((((releaseSummaryOf db opts.ring).getD []).filter fun q => q.source == opts.source &&
              q.repoArch == opts.arch).map (·.sha256)).contains ·)) := rfl
    have kept : (selected opts imports upstream db).remove.isEmpty = true ↔
        ∀ q ∈ db.ringRows opts.ring, Mine opts q → q.name ∈ (keptOf opts upstream db).map (·.name) := by
      unfold selected selectionOf Mine
      dsimp only
      simp only [List.isEmpty_iff, List.map_eq_nil_iff, List.filter_eq_nil_iff, List.mem_filter, mem_headRows well,
        Bool.and_eq_true, beq_iff_eq, Bool.not_eq_true', Bool.not_eq_false, List.contains_iff_mem, and_imp]
    rw [asked, Bool.and_eq_true, Bool.and_eq_true, kept, and_assoc]
    refine and_congr_right fun _ => and_congr ?_ ?_
    · simp only [List.all_eq_true, List.contains_iff_mem, List.forall_mem_map, List.mem_filter, mem_headRows well,
        Bool.and_eq_true, beq_iff_eq, and_imp, Mine]
    · simp only [List.all_eq_true, List.contains_iff_mem, List.mem_map, List.mem_filter, mem_headRows well,
        Bool.and_eq_true, beq_iff_eq, and_assoc, Mine]
  rw [unfolded, ← and_assoc]
  refine and_congr_left fun _ => ?_
  constructor
  · rintro ⟨names, shas⟩ q inRing mine
    exact ⟨names q inRing mine, shas q inRing mine⟩
  · intro both
    exact ⟨fun q inRing mine => (both q inRing mine).1, fun q inRing mine => (both q inRing mine).2⟩

include plain

theorem grown_importedBy : Grown opts imports (withinLimit opts (classified opts upstream db).missing) db
    (importedBy opts imports upstream db).1 :=
  grown_importAll well fun p tried => plain p (mem_keptOf_sub (mem_tried tried))

/-- After the imports the index has what it had and what was imported. -/
theorem indexed_importedBy {sha : String} : indexed (importedBy opts imports upstream db).1 sha opts.arch = true ↔
    indexed db sha opts.arch = true ∨ ∃ p ∈ (importedBy opts imports upstream db).2.1, p.sha256 = sha := by
  constructor
  · intro now
    obtain ⟨q, inTable, isSha, isArch⟩ := indexed_iff.mp now
    rcases (grown_importedBy well plain).new q inTable with old | ⟨p, tried, m, got, -, ofP, -⟩
    · exact .inl (indexed_iff.mpr ⟨q, old, isSha, isArch⟩)
    · have isSome : (imports p).toOption.isSome = true := by rw [got]; rfl
      exact .inr ⟨p, mem_done.mpr ⟨tried, isSome⟩, ofP.symm.trans isSha⟩
  · rintro (before | ⟨p, done, rfl⟩)
    · obtain ⟨q, inTable, isRow⟩ := indexed_iff.mp before
      exact indexed_iff.mpr ⟨q, (grown_importedBy well plain).old q inTable, isRow⟩
    · obtain ⟨tried, got⟩ := mem_done.mp done
      exact importAll_indexed tried got db

/-- What a run pins: the kept packages the index then has, and the objects in the place of those that collide. -/
theorem mem_add {sha : String} : sha ∈ (selected opts imports upstream db).add ↔
    (∃ p ∈ keptOf opts upstream db, p.sha256 = sha ∧
        p.filename ∉ (classified opts upstream db).collisions.map (·.1) ∧
        indexed (importedBy opts imports upstream db).1 sha opts.arch = true) ∨
      ∃ p ∈ keptOf opts upstream db, collision db opts p = some sha := by
  have pinned : ∀ p ∈ keptOf opts upstream db,
      ((classified opts upstream db).known ++ (importedBy opts imports upstream db).2.1.map (·.sha256)).contains p.sha256 =
          true ↔ indexed (importedBy opts imports upstream db).1 p.sha256 opts.arch = true := by
    intro p kept
    rw [List.contains_iff_mem, List.mem_append, mem_known, indexed_importedBy well plain, List.mem_map]
    refine or_congr_left ⟨fun known => known.2, fun known => ⟨⟨p, kept, rfl⟩, known⟩⟩
  rw [← mem_reuse]
  unfold selected selectionOf
  dsimp only
  rw [List.mem_append]
  refine or_congr_left ?_
  simp only [List.mem_map, List.mem_filter, Bool.and_eq_true, Bool.not_eq_true', ← Bool.not_eq_true,
    List.contains_iff_mem]
  simp only [List.contains_iff_mem] at pinned
  constructor
  · rintro ⟨p, ⟨kept, known, free⟩, rfl⟩
    exact ⟨p, kept, rfl, free, (pinned p kept).mp known⟩
  · rintro ⟨p, kept, rfl, free, known⟩
    exact ⟨p, ⟨kept, (pinned p kept).mpr known, free⟩, rfl⟩

theorem add_indexed {sha : String} (pinned : sha ∈ (selected opts imports upstream db).add) :
    ∃ q ∈ (importedBy opts imports upstream db).1.packages, q.sha256 = sha ∧ q.repoArch = opts.arch := by
  rcases (mem_add well plain).mp pinned with ⟨p, -, -, -, known⟩ | ⟨p, -, collides⟩
  · exact indexed_iff.mp known
  · obtain ⟨q, stored, isSha⟩ := byFilename_some (collision_some.mp collides).1
    obtain ⟨inTable, mine, -⟩ := mem_storedRows stored
    exact ⟨q, (grown_importedBy well plain).old q inTable, isSha, mine.2⟩

theorem adds_iff {note : String} {q : Package} :
    (releaseRequest opts (selected opts imports upstream db) note).Adds (some opts.arch) q ↔
      q.repoArch = opts.arch ∧ q.sha256 ∈ (selected opts imports upstream db).add := by
  have entry : ∀ sha ∈ (selected opts imports upstream db).add, Wanted.ofEntry sha = ⟨sha, sha, none⟩ := by
    intro sha pinned
    obtain ⟨row, inTable, rfl, -⟩ := add_indexed well plain pinned
    exact ofEntry_plain ((grown_importedBy well plain).well.plain row inTable)
  unfold CreateRelease.Adds releaseRequest
  dsimp only
  rw [Option.all_some, beq_iff_eq]
  constructor
  · rintro ⟨same, sha, pinned, isSha, -⟩
    rw [entry sha pinned] at isSha
    exact ⟨same.symm, isSha ▸ pinned⟩
  · rintro ⟨same, pinned⟩
    refine ⟨same.symm, _, pinned, ?_, ?_⟩ <;> rw [entry _ pinned]
    rfl

end Selection

end Run

end OmarchyPool.Sync
