/-
# OmarchyPool.Renders -- the pool and the renders that write to it

A render reads a release's selection of one architecture and puts one database per source,
in some order, and says when it is done; it may also die on the way and say nothing.  Between
two of its puts the pool makes releases, collects garbage, and takes the puts of other
renders.  `Pool` is the index and the renders in flight, `Act` one step of either, each request
whole.

The second half says what one put leaves (`put_posted`): every row of a database that was not
there before is a current one, at the key the put wrote, and it is the release's own, or that of
one of its first descendants that had none, or one that awaited this render or the one the
release's own row awaited (`MadeCurrent`).
-/
import OmarchyPool.Artifacts
import OmarchyPool.Lib.Separator
import OmarchyPool.Requests

namespace OmarchyPool

open Lib

set_option autoImplicit false

/-! ## Slices -/

/-- The packages of one architecture among `ids`. -/
def archSlice (index : List Package) (ids : Finset PackageId) (arch : Arch) : Finset PackageId :=
  ids.filter fun id => index.any fun p => p.id == id && p.repoArch == arch

/-- The packages of one source and architecture among `ids`: what a database lists. -/
def sliceOf (index : List Package) (ids : Finset PackageId) (source : String) (arch : Arch) :
    Finset PackageId :=
  ids.filter fun id => index.any fun p => p.id == id && p.source == source && p.repoArch == arch

/-- The sources that have packages of an architecture among `ids`. -/
def sourcesOf (index : List Package) (ids : Finset PackageId) (arch : Arch) : List String :=
  ((index.filter fun p => p.id ∈ ids && p.repoArch == arch).map (·.source)).dedup

/-- Selections with the same packages of an architecture have the same slices of it. -/
theorem sliceOf_congr {index : List Package} {ids ids' : Finset PackageId} {arch : Arch}
    (same : archSlice index ids arch = archSlice index ids' arch) (source : String) :
    sliceOf index ids source arch = sliceOf index ids' source arch := by
  have inner : ∀ ids, sliceOf index ids source arch =
      sliceOf index (archSlice index ids arch) source arch := by
    intro ids
    ext id
    simp only [sliceOf, archSlice, Finset.mem_filter, List.any_eq_true, Bool.and_eq_true, beq_iff_eq]
    constructor
    · rintro ⟨member, p, inIndex, ⟨sameId, isSource⟩, isArch⟩
      exact ⟨⟨member, p, inIndex, sameId, isArch⟩, p, inIndex, ⟨sameId, isSource⟩, isArch⟩
    · rintro ⟨⟨member, -⟩, found⟩
      exact ⟨member, found⟩
  rw [inner ids, inner ids', same]

/-! ## The pool -/

/-- A render in flight: the release it read, and the sources it has not put yet. -/
structure Render where
  release : Release
  arch : Arch
  left : List String
deriving DecidableEq

structure Pool where
  /-- Every package ever indexed: what a row says of a package outlives the row. -/
  index : List Package
  world : World
  renders : List Render
  /-- The renders that said they were done. -/
  finished : List (Release × Arch)

/-- The pool's key, and the size of a database. -/
structure Press where
  sign : Option (Blob → Blob)
  size : Finset PackageId → Nat

/-- A pool that does not sign, for the concrete runs. -/
def plainPress : Press := ⟨none, Finset.card⟩

namespace Pool

def fresh (packages : List Package) (bucket : String → Option Blob) : Pool :=
  ⟨packages, .fresh packages bucket, [], []⟩

/-- A release's slice of a source and architecture. -/
def slice (pool : Pool) (release : ReleaseId) (source : String) (arch : Arch) : Finset PackageId :=
  sliceOf pool.index (pool.world.selection release) source arch

end Pool

/-- The database of a slice: its bytes are determined by what it lists. -/
def Pool.database (pool : Pool) (press : Press) (release : ReleaseId) (source : String) (arch : Arch) :
    Blob :=
  ⟨press.size (pool.slice release source arch), pool.slice release source arch, some release⟩

/-- The put of one database. -/
def Render.put (render : Render) (press : Press) (pool : Pool) (source : String) : PutArtifact where
  releaseId := render.release.id
  kind := .db
  repo := repoName source render.release.ring
  arch := some render.arch.name
  bytes := some (pool.database press render.release.id source render.arch)

/-- One step: a request to the pool, or a render that starts. -/
inductive Act where
  | create (body : CreateRelease)
  | start (release : ReleaseId) (arch : Arch)
  | put (render : Nat) (source : String)
  | rendered (render : Nat)
  | gc (params : GcParams)
deriving DecidableEq

/-- A render puts only what it has left, and is done only when nothing is. -/
def Pool.next (press : Press) (act : Act) (pool : Pool) : Pool :=
  match act with
  | .create body => { pool with world := ((handleCreateRelease body).run pool.world).2 }
  | .start id arch =>
      match pool.world.db.release? id with
      | none => pool
      | some release =>
          { pool with renders := pool.renders ++
              [⟨release, arch, sourcesOf pool.index (pool.world.selection id) arch⟩] }
  | .put i source =>
      match pool.renders[i]? with
      | none => pool
      | some render =>
          if source ∈ render.left then
            { pool with
              world := ((handlePutArtifact press.sign (render.put press pool source)).run pool.world).2
              renders := pool.renders.set i { render with left := render.left.erase source } }
          else pool
  | .rendered i =>
      match pool.renders[i]? with
      | none => pool
      | some render =>
          if render.left = [] then
            { pool with
              world := ((handleRendered render.release.id render.arch.name).run pool.world).2
              finished := pool.finished ++ [(render.release, render.arch)] }
          else pool
  | .gc params => { pool with world := ((handleGc params).run pool.world).2 }

/-- A render that goes on has read what it read. -/
theorem map_release_set {renders : List Render} {i : Nat} {render : Render}
    (found : renders[i]? = some render) (left : List String) :
    (renders.set i { render with left }).map (·.release) = renders.map (·.release) := by
  rw [List.map_set]
  apply List.ext_getElem?
  intro j
  rw [List.getElem?_set]
  split
  · subst j
    obtain ⟨inside, is⟩ := List.getElem?_eq_some_iff.mp found
    simp [inside, is]
  · rfl

@[simp] theorem Pool.next_index (press : Press) (act : Act) (pool : Pool) :
    (pool.next press act).index = pool.index := by
  unfold Pool.next
  cases act with
  | create body => rfl
  | gc params => rfl
  | start id arch => dsimp only; split <;> rfl
  | put i source =>
      dsimp only
      split
      · rfl
      · split <;> rfl
  | rendered i =>
      dsimp only
      split
      · rfl
      · split <;> rfl

/-! ## Keys of databases -/

theorem Ring.name_plain (ring : Ring) : '-' ∉ ring.name.toList := by cases ring <;> decide

theorem Ring.name_injective {ring ring' : Ring} (same : ring.name = ring'.name) : ring = ring' := by
  revert same
  cases ring <;> cases ring' <;> decide

theorem Arch.name_plain (arch : Arch) : '/' ∉ arch.name.toList := by cases arch <;> decide

theorem repoName_toList (source : String) (ring : Ring) :
    (repoName source ring).toList = ("omarchy-".toList ++ source.toList) ++ '-' :: ring.name.toList := by
  simp [repoName]

theorem repoName_injective {source source' : String} {ring ring' : Ring}
    (same : repoName source ring = repoName source' ring') : source = source' ∧ ring = ring' := by
  have texts := congrArg String.toList same
  rw [repoName_toList, repoName_toList] at texts
  obtain ⟨fronts, names⟩ := split_last ring.name_plain ring'.name_plain texts
  exact ⟨String.toList_injective (List.append_cancel_left fronts),
    Ring.name_injective (String.toList_injective names)⟩

/-- The source read back from a repository's name is the one it was made from. -/
theorem source_of_repoName {source found : String} {ring : Ring}
    (read : sourceOfRepo (repoName source ring) = some found) : found = source := by
  unfold sourceOfRepo at read
  split at read
  · obtain ⟨stem, isStem, rfl⟩ := Option.map_eq_some_iff.mp read
    obtain ⟨ring', -, isStem⟩ := List.exists_of_findSome?_eq_some isStem
    obtain ⟨stem', stripped, isStem⟩ := Option.bind_eq_some_iff.mp isStem
    have same : stem' = stem := by
      split at isStem
      · cases isStem
      · simpa using isStem
    subst same
    have text := of_stripSuffix stripped
    rw [repoName_toList] at text
    have front : (("omarchy-".toList ++ source.toList) ++ '-' :: ring.name.toList).drop
        "omarchy-".toList.length = source.toList ++ '-' :: ring.name.toList := by simp
    rw [front] at text
    rw [← (split_last ring.name_plain ring'.name_plain text).1, String.ofList_toList]
  · cases read

/-- A repository's name has no slash and no dot, so neither has its source. -/
theorem repoText_plain {source : String} {ring : Ring} (ok : isRepoText (repoName source ring) = true) :
    '/' ∉ source.toList := by
  simp only [isRepoText, Bool.and_eq_true, List.all_eq_true] at ok
  intro slash
  have := ok.2 '/' (by rw [repoName_toList]; simp [slash])
  revert this
  decide

theorem artifactKey_toList (source : String) (arch : Arch) (repo : String) (kind : Kind) :
    (artifactKey source arch repo kind).toList =
      source.toList ++ '/' :: (arch.name.toList ++ '/' :: (repo.toList ++ '.' :: kind.name.toList)) := by
  simp [artifactKey]

/-- One key per source, architecture and ring. -/
theorem dbKey_injective {source source' : String} {arch arch' : Arch} {repo repo' : String}
    (plain : '/' ∉ source.toList) (plain' : '/' ∉ source'.toList)
    (same : artifactKey source arch repo .db = artifactKey source' arch' repo' .db) :
    source = source' ∧ arch = arch' ∧ repo = repo' := by
  have texts := congrArg String.toList same
  rw [artifactKey_toList, artifactKey_toList] at texts
  obtain ⟨sources, rest⟩ := split_first plain plain' texts
  obtain ⟨arches, tails⟩ := split_first arch.name_plain arch'.name_plain rest
  exact ⟨String.toList_injective sources, Arch.name_injective (String.toList_injective arches),
    String.toList_injective (List.append_cancel_right tails)⟩

/-- A database and a signature never share a key. -/
theorem dbKey_ne_sigKey (source source' : String) (arch arch' : Arch) (repo repo' : String) :
    artifactKey source arch repo .db ≠ artifactKey source' arch' repo' .dbSig := by
  intro same
  have lasts := congrArg (fun s : String => s.toList.getLast?) same
  simp [artifactKey_toList, List.getLast?_append, List.getLast?_cons, Kind.name] at lasts

/-! ## Rows of databases -/

namespace Db

variable {db : Db} {a b : Artifact}

/-- The row of one release, database and kind. -/
theorem hasArtifact_eq_true : db.hasArtifact a = true ↔ ∃ c ∈ db.artifacts,
    c.releaseId = a.releaseId ∧ c.repo = a.repo ∧ c.arch = a.arch ∧ c.kind = a.kind := by
  simp [hasArtifact, and_assoc]

theorem mem_insertArtifact (member : b ∈ (db.insertArtifact a).artifacts) :
    b ∈ db.artifacts ∨ b = a ∧ db.hasArtifact a = false := by
  unfold insertArtifact at member
  split at member
  · exact .inl member
  · rename_i free
    rcases List.mem_append.mp member with old | new
    · exact .inl old
    · exact .inr ⟨List.mem_singleton.mp new, by simpa using free⟩

theorem hasArtifact_insertArtifact {c : Artifact} (has : db.hasArtifact c = true) :
    (db.insertArtifact a).hasArtifact c = true := by
  obtain ⟨d, member, same⟩ := hasArtifact_eq_true.mp has
  refine hasArtifact_eq_true.mpr ⟨d, ?_, same⟩
  unfold insertArtifact
  split
  · exact member
  · exact List.mem_append_left _ member

/-- Rows put in where there is none: the old ones stay, a new one had no row in its place. -/
theorem mem_insertArtifacts (rows : List Artifact)
    (member : b ∈ (rows.foldl insertArtifact db).artifacts) :
    b ∈ db.artifacts ∨ b ∈ rows ∧ db.hasArtifact b = false := by
  induction rows generalizing db with
  | nil => exact .inl member
  | cons a rows ih =>
      rcases ih member with old | ⟨inRows, free⟩
      · rcases mem_insertArtifact old with old | ⟨rfl, free⟩
        · exact .inl old
        · exact .inr ⟨List.mem_cons_self, free⟩
      · refine .inr ⟨List.mem_cons_of_mem _ inRows, ?_⟩
        rw [Bool.eq_false_iff] at free ⊢
        exact fun has => free (hasArtifact_insertArtifact has)

theorem hasArtifact_insertArtifacts (rows : List Artifact) {c : Artifact}
    (has : db.hasArtifact c = true) : (rows.foldl insertArtifact db).hasArtifact c = true := by
  induction rows generalizing db with
  | nil => exact has
  | cons a rows ih => exact ih (hasArtifact_insertArtifact has)

theorem mem_insertArtifacts_of_mem (rows : List Artifact) (member : b ∈ db.artifacts) :
    b ∈ (rows.foldl insertArtifact db).artifacts := by
  induction rows generalizing db with
  | nil => exact member
  | cons a rows ih =>
      refine ih ?_
      unfold insertArtifact
      split
      · exact member
      · exact List.mem_append_left _ member

/-- Each of the rows is there in the end, or one in its place. -/
theorem hasArtifact_of_inserted (db : Db) {rows : List Artifact} (inRows : a ∈ rows) :
    (rows.foldl insertArtifact db).hasArtifact a = true := by
  induction rows generalizing db with
  | nil => cases inRows
  | cons x rows ih =>
      rcases List.mem_cons.mp inRows with rfl | later
      · refine hasArtifact_insertArtifacts rows ?_
        unfold insertArtifact
        split
        · assumption
        · exact hasArtifact_eq_true.mpr ⟨a, by simp, rfl, rfl, rfl, rfl⟩
      · exact ih _ later

theorem mem_upsertArtifact (member : b ∈ (db.upsertArtifact a).artifacts) :
    b = a ∨ b ∈ db.artifacts := by
  unfold upsertArtifact at member
  split at member
  · obtain ⟨c, inTable, rfl⟩ := List.mem_map.mp member
    split
    · exact .inl rfl
    · exact .inr inTable
  · rcases List.mem_append.mp member with old | new
    · exact .inr old
    · exact .inl (List.mem_singleton.mp new)

theorem hasArtifact_upsertArtifact {c : Artifact} (has : db.hasArtifact c = true) :
    (db.upsertArtifact a).hasArtifact c = true := by
  obtain ⟨d, member, same⟩ := hasArtifact_eq_true.mp has
  unfold upsertArtifact
  split
  · by_cases here : d.releaseId = a.releaseId ∧ d.repo = a.repo ∧ d.arch = a.arch ∧ d.kind = a.kind
    · refine hasArtifact_eq_true.mpr ⟨a, List.mem_map.mpr ⟨d, member, if_pos here⟩, ?_⟩
      rwa [here.1, here.2.1, here.2.2.1, here.2.2.2] at same
    · exact hasArtifact_eq_true.mpr ⟨d, List.mem_map.mpr ⟨d, member, if_neg here⟩, same⟩
  · exact hasArtifact_eq_true.mpr ⟨d, List.mem_append_left _ member, same⟩

theorem inherit_eq (db : Db) (a : Artifact) : db.inherit a =
    ((db.kin a.releaseId).map fun id => { a with releaseId := id }).foldl insertArtifact db := by
  rw [inherit, List.foldl_map]

theorem mem_awaited {v : ReleaseId} (member : b ∈ (db.awaited v a).artifacts) :
    b ∈ db.artifacts ∨ ∃ c ∈ db.artifacts, c.awaits = some v ∧ c.repo = a.repo ∧ c.arch = a.arch ∧
      c.kind = a.kind ∧ b = { c with r2Key := a.r2Key, size := a.size, awaits := none } := by
  obtain ⟨c, inTable, rfl⟩ := List.mem_map.mp member
  split
  · rename_i is
    exact .inr ⟨c, inTable, is.1, is.2.1, is.2.2.1, is.2.2.2, rfl⟩
  · exact .inl inTable

theorem hasArtifact_awaited {v : ReleaseId} {c : Artifact} (has : db.hasArtifact c = true) :
    (db.awaited v a).hasArtifact c = true := by
  obtain ⟨d, member, same⟩ := hasArtifact_eq_true.mp has
  refine hasArtifact_eq_true.mpr ⟨_, List.mem_map.mpr ⟨d, member, rfl⟩, ?_⟩
  split <;> exact same

/-- What the release's own row awaited is what one of its rows awaits. -/
theorem ownWait_row {v : ReleaseId} (own : db.ownWait a = some v) : ∃ c ∈ db.artifacts,
    c.releaseId = a.releaseId ∧ c.repo = a.repo ∧ c.arch = a.arch ∧ c.kind = a.kind ∧
      c.awaits = some v := by
  obtain ⟨found, -⟩ := Option.filter_eq_some_iff.mp own
  obtain ⟨c, isRow, awaits⟩ := Option.bind_eq_some_iff.mp found
  have is := List.find?_some isRow
  simp only [Bool.and_eq_true, beq_iff_eq] at is
  exact ⟨c, List.mem_of_find?_eq_some isRow, is.1.1.1, is.1.1.2, is.1.2, is.2, awaits⟩

end Db

/-! ## What a put leaves -/

/-- Why the put of `a` made a row of its database current: it is the release's own; it is that
of a descendant that had none; or the row awaited this render, or the one the release's own row
awaited. -/
inductive Claims (db : Db) (a : Artifact) (id : ReleaseId) : Prop where
  | own : id = a.releaseId → Claims db a id
  | kin : id ∈ db.kin a.releaseId → db.hasArtifact { a with releaseId := id } = false →
      Claims db a id
  | waited (c : Artifact) (v : ReleaseId) : c ∈ db.artifacts → c.releaseId = id → c.repo = a.repo →
      c.arch = a.arch → c.kind = a.kind → c.awaits = some v →
      v = a.releaseId ∨ db.ownWait a = some v → Claims db a id

structure MadeCurrent (db : Db) (a b : Artifact) : Prop where
  current : b.awaits = none
  repo : b.repo = a.repo
  arch : b.arch = a.arch
  key : b.r2Key = a.r2Key
  claims : Claims db a b.releaseId

/-- An index on the way from `start` through the put of the database `a`. -/
structure Posting (start : Db) (a : Artifact) (db : Db) : Prop where
  rows : ∀ b ∈ db.artifacts, b ∈ start.artifacts ∨
    b.awaits = none ∧ (b.kind = a.kind → MadeCurrent start a b)
  keys : ∀ c, start.hasArtifact c = true → db.hasArtifact c = true
  releases : db.releases = start.releases

namespace Posting

variable {start db : Db} {a x : Artifact}

/-- A row that awaits a render was there all along. -/
theorem awaiting (posting : Posting start a db) {b : Artifact} (member : b ∈ db.artifacts)
    {v : ReleaseId} (awaits : b.awaits = some v) : b ∈ start.artifacts := by
  rcases posting.rows b member with old | ⟨none, -⟩
  · exact old
  · rw [none] at awaits
    cases awaits

theorem upsert (posting : Posting start a db) (current : x.awaits = none) (is : x = a ∨ x.kind ≠ a.kind) :
    Posting start a (db.upsertArtifact x) := by
  refine ⟨?_, fun c has => Db.hasArtifact_upsertArtifact (posting.keys c has), ?_⟩
  · intro b member
    rcases Db.mem_upsertArtifact member with rfl | old
    · refine .inr ⟨current, fun sameKind => ?_⟩
      rcases is with rfl | other
      · exact ⟨current, rfl, rfl, rfl, .own rfl⟩
      · exact absurd sameKind other
    · exact posting.rows b old
  · rw [← posting.releases]
    unfold Db.upsertArtifact
    split <;> rfl

theorem inherit (posting : Posting start a db) (current : x.awaits = none)
    (is : x = a ∨ x.kind ≠ a.kind) : Posting start a (db.inherit x) := by
  rw [Db.inherit_eq]
  refine ⟨?_, fun c has => Db.hasArtifact_insertArtifacts _ (posting.keys c has), ?_⟩
  · intro b member
    rcases Db.mem_insertArtifacts _ member with old | ⟨new, free⟩
    · exact posting.rows b old
    obtain ⟨id, isKin, rfl⟩ := List.mem_map.mp new
    refine .inr ⟨current, fun sameKind => ?_⟩
    rcases is with rfl | other
    · refine ⟨current, rfl, rfl, rfl, .kin ?_ ?_⟩
      · -- The releases are those the put found.
        have same : db.kin = start.kin := by
          funext id
          have descend : ∀ fuel ids, db.descend fuel ids = start.descend fuel ids := by
            intro fuel
            induction fuel with
            | zero => intro ids; rfl
            | succ fuel ih => intro ids; simp only [Db.descend, posting.releases, ih]
          exact descend _ _
        rwa [← same]
      · rw [Bool.eq_false_iff] at free ⊢
        exact fun has => free (posting.keys _ has)
    · exact absurd sameKind other
  · obtain ⟨artifacts, eq⟩ := Db.foldl_insertArtifact
      ((db.kin x.releaseId).map fun id => { x with releaseId := id }) db
    rw [eq]
    exact posting.releases

theorem awaited (posting : Posting start a db) {v : ReleaseId}
    (is : x = a ∧ (v = a.releaseId ∨ start.ownWait a = some v) ∨ x.kind ≠ a.kind) :
    Posting start a (db.awaited v x) := by
  refine ⟨?_, fun c has => Db.hasArtifact_awaited (posting.keys c has), posting.releases⟩
  intro b member
  rcases Db.mem_awaited member with old | ⟨c, inTable, awaits, repo, arch, kind, rfl⟩
  · exact posting.rows b old
  refine .inr ⟨rfl, fun sameKind => ?_⟩
  rcases is with ⟨rfl, whose⟩ | other
  · exact ⟨rfl, repo, arch, rfl,
      .waited c v (posting.awaiting inTable awaits) rfl repo arch kind awaits whose⟩
  · exact absurd (kind.symm.trans sameKind) other

end Posting

/-- Nothing but rows of databases and the bucket was written. -/
structure Shelved (w w' : World) : Prop where
  rest : w'.db = { w.db with artifacts := w'.db.artifacts, bucket := w'.db.bucket }
  selection : w'.selection = w.selection

theorem Shelved.refl (w : World) : Shelved w w := ⟨rfl, rfl⟩

theorem Shelved.trans {a b d : World} (first : Shelved a b) (second : Shelved b d) : Shelved a d :=
  ⟨by rw [second.rest, first.rest], second.selection.trans first.selection⟩

theorem Shelved.commit {w : World} {db : Db}
    (rest : db = { w.db with artifacts := db.artifacts, bucket := db.bucket }) :
    Shelved w (w.commit db) := by
  refine ⟨rest, World.commit_selection_of_same ⟨?_, ?_, ?_⟩⟩ <;> rw [rest]

theorem makeCurrent_spec {start : World} {a x : Artifact} (current : x.awaits = none)
    (is : x = a ∨ x.kind ≠ a.kind) {before : Option ReleaseId}
    (whose : ∀ v, before = some v → x = a → start.db.ownWait a = some v) {w : World}
    (shelved : Shelved start w) (posting : Posting start.db a w.db) :
    (makeCurrent x before).Spec (.alone World Event) w fun result w' => result = .ok () ∧
      Shelved start w' ∧ Posting start.db a w'.db ∧ w'.db.bucket = w.db.bucket := by
  have inherits : Shelved w (w.commit (w.db.inherit x)) ∧ (w.db.inherit x).bucket = w.db.bucket := by
    obtain ⟨artifacts, eq⟩ := Db.foldl_insertArtifact
      ((w.db.kin x.releaseId).map fun id => { x with releaseId := id }) w.db
    rw [← Db.inherit_eq] at eq
    rw [eq]
    exact ⟨.commit rfl, rfl⟩
  have inherited := posting.inherit current is
  unfold makeCurrent
  refine Program.Spec.bind (Program.alone_exec ?_)
  refine Program.Spec.bind (Program.alone_exec ?_)
  have first : Posting start.db a ((w.db.inherit x).awaited x.releaseId x) := by
    refine inherited.awaited ?_
    rcases is with rfl | other
    · exact .inl ⟨rfl, .inl rfl⟩
    · exact .inr other
  have toFirst : Shelved start ((w.commit (w.db.inherit x)).commit
      ((w.db.inherit x).awaited x.releaseId x)) := (shelved.trans inherits.1).trans (.commit rfl)
  cases before with
  | none => exact ⟨rfl, toFirst, first, inherits.2⟩
  | some before =>
      refine Program.alone_exec ⟨rfl, toFirst.trans (.commit rfl), ?_, inherits.2⟩
      refine first.awaited ?_
      rcases is with rfl | other
      · exact .inl ⟨rfl, .inr (whose before rfl rfl)⟩
      · exact .inr other

/-- The row of a release's database. -/
def databaseRow (release : ReleaseId) (source : String) (ring : Ring) (arch : Arch) (size : Nat) :
    Artifact :=
  ⟨release, repoName source ring, arch, .db, artifactKey source arch (repoName source ring) .db, size, none⟩

/-- A put that went through, of the database `row` with its bytes. -/
structure Posted (w w' : World) (row : Artifact) (bytes : Blob) : Prop where
  shelved : Shelved w w'
  posting : Posting w.db row w'.db
  release : ∃ r ∈ w.db.releases, r.id = row.releaseId
  stored : ∀ source arch repo, w'.db.bucket (artifactKey source arch repo .db) =
    if artifactKey source arch repo .db = row.r2Key then some bytes
    else w.db.bucket (artifactKey source arch repo .db)
  kept : ∀ key, (w.db.bucket key).isSome = true → (w'.db.bucket key).isSome = true

theorem Db.putObject_kept (db : Db) (key : String) (blob : Blob) {other : String}
    (there : (db.bucket other).isSome = true) : ((db.putObject key blob).bucket other).isSome = true := by
  by_cases here : other = key
  · subst here
    simp [Db.putObject]
  · simpa [Db.putObject, Function.update_of_ne here] using there

/-- The put of a release's database, alone: it is refused, or posted. -/
theorem put_posted (sign : Option (Blob → Blob)) (id : ReleaseId) (source : String) (ring : Ring)
    (arch : Arch) (bytes : Blob) (w : World) :
    (handlePutArtifact sign ⟨id, .db, repoName source ring, some arch.name, some bytes⟩).Spec
      (.alone World Event) w fun _ w' => w = w' ∨
        '/' ∉ source.toList ∧ Posted w w' (databaseRow id source ring arch bytes.size) bytes := by
  unfold handlePutArtifact
  dsimp only
  split
  · exact .inl rfl
  rename_i isText
  rw [Bool.not_eq_true, Bool.not_eq_false'] at isText
  rw [Option.getD_some, isRepoArch_name]
  dsimp only
  cases read : sourceOfRepo (repoName source ring) with
  | none => exact .inl rfl
  | some found =>
  obtain rfl := source_of_repoName read
  refine Program.Spec.bind (Program.alone_query ?_)
  dsimp only
  cases exists_ : w.db.release? id with
  | none => exact .inl rfl
  | some release =>
  have known : ∃ r ∈ w.db.releases, r.id = id :=
    ⟨release, List.mem_of_find?_eq_some exists_, by simpa using List.find?_some exists_⟩
  have plain := repoText_plain isText
  simp only [Kind.sig, Option.isNone_some, Bool.and_false, Bool.false_eq_true, if_false]
  refine Program.Spec.bind (Program.alone_query ?_)
  refine Program.Spec.bind (Program.alone_exec ?_)
  generalize row : databaseRow id found ring arch bytes.size = a
  have key : a.r2Key = artifactKey found arch (repoName found ring) .db := by rw [← row]; rfl
  have current : a.awaits = none := by rw [← row]; rfl
  rw [show (⟨id, repoName found ring, arch, .db, artifactKey found arch (repoName found ring) .db,
    bytes.size, none⟩ : Artifact) = a from row, ← key]
  have object : Shelved w (w.commit (w.db.putObject a.r2Key bytes)) := .commit rfl
  have storedOne : ∀ s x repo, (w.db.putObject a.r2Key bytes).bucket (artifactKey s x repo .db) =
      if artifactKey s x repo .db = a.r2Key then some bytes
      else w.db.bucket (artifactKey s x repo .db) := by
    intro s x repo
    split
    · rename_i here
      rw [here]
      exact Function.update_self ..
    · rename_i other
      exact Function.update_of_ne other ..
  have release' : ∃ r ∈ w.db.releases, r.id = a.releaseId := by rw [← row]; exact known
  -- What is left of either branch: the rows, with the bytes in place.
  have posted : ∀ {w' : World}, Shelved w w' → Posting w.db a w'.db →
      (∀ s x repo, w'.db.bucket (artifactKey s x repo .db) =
        (w.db.putObject a.r2Key bytes).bucket (artifactKey s x repo .db)) →
      (∀ other, ((w.db.putObject a.r2Key bytes).bucket other).isSome = true →
        (w'.db.bucket other).isSome = true) → Posted w w' a bytes := by
    intro w' shelved posting same kept
    refine ⟨shelved, posting, release', fun s x repo => (same s x repo).trans (storedOne s x repo), ?_⟩
    exact fun other there => kept other (Db.putObject_kept w.db _ _ there)
  have upsertShelved : ∀ {w' : World} (x : Artifact), Shelved w w' →
      Shelved w (w'.commit (w'.db.upsertArtifact x)) ∧ (w'.db.upsertArtifact x).bucket = w'.db.bucket := by
    intro w' x shelved
    unfold Db.upsertArtifact
    split <;> exact ⟨shelved.trans (.commit rfl), rfl⟩
  have start : Posting w.db a (w.db.putObject a.r2Key bytes) := ⟨fun _ h => .inl h, fun _ h => h, rfl⟩
  cases sign with
  | none =>
      refine Program.Spec.bind (Program.alone_exec ?_)
      obtain ⟨shelved, bucket⟩ := upsertShelved a object
      refine Program.Spec.bind ((makeCurrent_spec current (.inl rfl) (fun _ is _ => is) shelved
        (start.upsert current (.inl rfl))).mono ?_)
      rintro result w' ⟨rfl, shelved', posting, same⟩
      have buckets : w'.db.bucket = (w.db.putObject a.r2Key bytes).bucket := same.trans bucket
      exact .inr ⟨plain, posted shelved' posting (fun _ _ _ => by rw [buckets]) fun _ there => by
        rwa [buckets]⟩
  | some sign =>
      have kindA : a.kind = .db := by rw [← row]; rfl
      have sigKind : ∀ x : Artifact, x.kind = .dbSig → x.kind ≠ a.kind := by
        intro x isSig same
        rw [isSig, kindA] at same
        cases same
      refine Program.Spec.bind (Program.alone_exec ?_)
      refine Program.Spec.bind (Program.alone_exec ?_)
      refine Program.Spec.bind (Program.alone_exec ?_)
      generalize sigKey : artifactKey found arch (repoName found ring) .dbSig = keyOfSig
      have signed : Shelved w ((w.commit (w.db.putObject a.r2Key bytes)).commit
          ((w.db.putObject a.r2Key bytes).putObject keyOfSig (sign bytes))) := object.trans (.commit rfl)
      have started : Posting w.db a ((w.db.putObject a.r2Key bytes).putObject keyOfSig (sign bytes)) :=
        ⟨fun _ h => .inl h, fun _ h => h, rfl⟩
      obtain ⟨shelved₁, bucket₁⟩ := upsertShelved
        ⟨id, repoName found ring, arch, .dbSig, keyOfSig, (sign bytes).size, none⟩ signed
      obtain ⟨shelved₂, bucket₂⟩ := upsertShelved a shelved₁
      refine Program.Spec.bind ((makeCurrent_spec current (.inl rfl) (fun _ is _ => is) shelved₂
        ((started.upsert rfl (.inr (sigKind _ rfl))).upsert current (.inl rfl))).mono ?_)
      rintro result w₃ ⟨rfl, shelved₃, posting₃, bucket₃⟩
      refine Program.Spec.bind ((makeCurrent_spec rfl (.inr (sigKind _ rfl)) (fun _ _ same => ?_)
        shelved₃ posting₃).mono ?_)
      · exact absurd (congrArg (·.kind) same) (sigKind _ rfl)
      rintro result w' ⟨rfl, shelved', posting, bucket'⟩
      have buckets : w'.db.bucket =
          ((w.db.putObject a.r2Key bytes).putObject keyOfSig (sign bytes)).bucket :=
        bucket'.trans (bucket₃.trans (bucket₂.trans bucket₁))
      refine .inr ⟨plain, posted shelved' posting (fun s x repo => ?_) fun _ there => ?_⟩
      · rw [buckets]
        refine Function.update_of_ne ?_ ..
        rw [← sigKey]
        exact dbKey_ne_sigKey _ _ _ _ _ _
      · rw [buckets]
        exact Db.putObject_kept _ _ _ there

theorem Render.put_run (render : Render) (press : Press) (pool : Pool) (source : String) :
    ((handlePutArtifact press.sign (render.put press pool source)).run pool.world).2 = pool.world ∨
      '/' ∉ source.toList ∧ Posted pool.world
        ((handlePutArtifact press.sign (render.put press pool source)).run pool.world).2
        (databaseRow render.release.id source render.release.ring render.arch
          (pool.database press render.release.id source render.arch).size)
        (pool.database press render.release.id source render.arch) :=
  (Program.alone_iff.mp (put_posted _ _ _ _ _ _ _)).imp_left Eq.symm

/-- The end of a render drops rows, and does nothing else. -/
structure Dropped (w w' : World) : Prop where
  shelved : Shelved w w'
  rows : ∀ b ∈ w'.db.artifacts, b ∈ w.db.artifacts
  bucket : w'.db.bucket = w.db.bucket

theorem rendered_dropped (id : ReleaseId) (archText : String) (w : World) :
    Dropped w ((handleRendered id archText).run w).2 := by
  have spec : (handleRendered id archText).Spec (.alone World Event) w fun _ w' => Dropped w w' := by
    unfold handleRendered
    split
    · exact ⟨.refl w, fun _ h => h, rfl⟩
    · rename_i arch _
      refine Program.Spec.bind (Program.alone_query ?_)
      -- Each statement of the batch filters the rows.
      have each : ∀ (ids : List ReleaseId) (db : Db), ∃ rows, rows ⊆ db.artifacts ∧
          ids.foldl (fun db id => db.dropAwaiting id arch) db = { db with artifacts := rows } := by
        intro ids
        induction ids with
        | nil => exact fun db => ⟨db.artifacts, fun _ h => h, rfl⟩
        | cons v rest ih =>
            intro db
            obtain ⟨rows, fewer, eq⟩ := ih (db.dropAwaiting v arch)
            exact ⟨rows, fun _ member => (List.mem_filter.mp (fewer member)).1, eq⟩
      refine Program.alone_iff.mpr ?_
      dsimp only [D1.returning, Program.run]
      obtain ⟨rows, fewer, eq⟩ := each (id :: (w.db.waited id arch).filter (· ≠ id))
        (w.db.dropCarried id arch)
      rw [eq]
      exact ⟨.commit rfl, fun _ member => (List.mem_filter.mp (fewer member)).1, rfl⟩
  exact Program.alone_iff.mp spec

end OmarchyPool
