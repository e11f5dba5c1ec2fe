/-
# OmarchyPool.Paging -- a release's packages, page by page

`GET /releases/:ring` lists a release's packages in `(name, repo_arch, source)` order.  A page is the
rows after a cursor; `page.next` is the cursor of its last row, a text that is read back from the
right, so a name may hold the separator.  A walk pins its release by id and follows `page.next`
while releases are made beside it: the membership is read from the ring's live rows while the release
is a head, from its checkpoint rows after.

`readAfter_cursor` reads a cursor back, `getRelease_page` says what one request answers in any store,
and `pages_exact` what a walk visits.
-/
import Mathlib.Data.List.GetD
import Mathlib.Data.Prod.Lex
import Mathlib.Data.String.Basic
import OmarchyPool.Lib.Keyset
import OmarchyPool.Protection
import OmarchyPool.Tally

namespace OmarchyPool

open Lib

set_option autoImplicit false

/-! ## Cursors -/

/-- `${last.name}/${last.repo_arch}/${last.source}`. -/
def Package.cursor (p : Package) : String := p.name ++ "/" ++ p.repoArch.name ++ "/" ++ p.source

/-- A cursor read back; an older one names no source. -/
structure After where
  name : String
  repoArch : String
  source : Option String
deriving DecidableEq, Repr

def joinParts (parts : List (List Char)) : String := String.ofList (['/'].intercalate parts)

/-- `after=<name>/<repo_arch>/<source>`, or the older two-part form. -/
def readAfter (text : String) : Option After :=
  let parts := text.toList.splitOn '/'
  let n := parts.length
  let part (i : Nat) := String.ofList (parts.getD i [])
  if 3 ≤ n ∧ (isRepoArch (part (n - 2))).isSome ∧ part (n - 1) ≠ "" then
    let name := joinParts (parts.take (n - 2))
    if name = "" then none else some ⟨name, part (n - 2), some (part (n - 1))⟩
  else if 2 ≤ n ∧ (isRepoArch (part (n - 1))).isSome then
    let name := joinParts (parts.take (n - 1))
    if name = "" then none else some ⟨name, part (n - 1), none⟩
  else none

/-- `(p.name, p.repo_arch, p.source) > (?2, ?3, ?4)`, without the source for an older cursor. -/
def After.before (after : After) (p : Package) : Bool :=
  match after.source with
  | some source => toLex (after.name, toLex (after.repoArch, source)) < p.rowKey
  | none => toLex (after.name, after.repoArch) < toLex (p.name, p.repoArch.name)

/-! ## The request -/

def maxUnpaged : Nat := 2000
def maxPage : Nat := 1000

structure GetRelease where
  ring : String
  arch : Option String := none
  releaseId : Option ReleaseId := none
  limit : Option Nat := none
  offset : Nat := 0
  after : Option String := none
  /-- `fields=summary`: never refused for its length. -/
  summary : Bool := false

structure Page where
  release : Release
  packages : List Package
  total : Nat
  next : Option String

/-- The release asked for: one of the ring's by its id, or its head. -/
def Db.pinned (db : Db) (ring : Ring) : Option ReleaseId → Option Release
  | some id => (db.release? id).filter (·.ring == ring)
  | none => db.ringHead ring

/-- One page of a release: after a cursor, or from an offset; `limit` 0 is no limit. -/
def releaseManifests (id : ReleaseId) (arch : Option Arch) (limit offset : Nat) (after : Option After) :
    Handler (List Package) := do
  let members ← releaseMembers id
  let rows ← D1.query .other fun db =>
    (db.rowsInOrder (members.rows db) arch).filter fun p => after.all (·.before p)
  pure (if limit = 0 then rows else if after.isSome then rows.take limit
    else (rows.drop offset).take limit)

/-- The release's package count, from its row when the row carries it. -/
def releaseCount (release : Release) (arch : Option Arch) : Handler Nat :=
  match arch, release.packageCount, release.sources with
  | none, some count, _ => pure count
  | some arch, _, some (slice :: slices) =>
      pure ((((slice :: slices).filter (·.arch == arch)).map (·.packages)).sum)
  | _, _, _ => do
      let members ← releaseMembers release.id
      D1.query .other fun db => (db.rowsInOrder (members.rows db) arch).length

/-- `page.next`: the cursor of the last row of a full page. -/
def nextCursor (limit : Nat) (packages : List Package) : Option String :=
  if limit ≠ 0 ∧ packages.length = limit then packages.getLast?.map (·.cursor) else none

def handleGetRelease (ask : GetRelease) : Handler Page := do
  match isRing ask.ring with
  | none => refuse 404 "unknown ring"
  | some ring => do
      let arch ← readArch ask.arch "unknown arch"
      match ← D1.query .other (·.pinned ring ask.releaseId) with
      | none => refuse 404 (ask.releaseId.elim s!"ring {ask.ring} has no release yet"
          fun id => s!"release {id} is not a {ask.ring} release")
      | some release => do
          let total ← releaseCount release arch
          let limit := ask.limit.elim 0 fun n => min (max 1 n) maxPage
          let cursor := ask.after.filter (· ≠ "")
          let after := cursor.bind readAfter
          if cursor.isSome ∧ after.isNone then
            refuse 400 "after must be <name>/<repo_arch>/<source>, as page.next gives it"
          else if limit = 0 ∧ ask.summary = false ∧ total > maxUnpaged then
            refuse 413 s!"release has {total} manifests; page with ?limit=<={maxPage}&after=<page.next>&release_id={release.id}"
          else do
            let packages ← releaseManifests release.id arch limit ask.offset after
            let _ ← releaseSummary release.id
            pure ⟨release, packages, total, nextCursor limit packages⟩

/-! ## Cursors read back -/

/-- What `POST /packages` lets into the index: a name, and one of the pool's sources. -/
def Package.posted (p : Package) : Bool := p.name ≠ "" && sources.contains p.source

theorem Package.posted_source {p : Package} (posted : p.posted = true) :
    p.name ≠ "" ∧ p.source ≠ "" ∧ '/' ∉ p.source.toList := by
  simp only [Package.posted, Bool.and_eq_true, decide_eq_true_eq, List.contains_eq_mem] at posted
  have plain : ∀ source ∈ sources, source ≠ "" ∧ '/' ∉ source.toList := by decide
  exact ⟨posted.1, plain p.source posted.2⟩

theorem splitOn_cursor {p : Package} (posted : p.posted = true) :
    p.cursor.toList.splitOn '/' =
      p.name.toList.splitOn '/' ++ [p.repoArch.name.toList, p.source.toList] := by
  obtain ⟨-, -, plain⟩ := Package.posted_source posted
  have arch : '/' ∉ p.repoArch.name.toList := by cases p.repoArch <;> decide
  have text : p.cursor.toList =
      p.name.toList ++ '/' :: (p.repoArch.name.toList ++ '/' :: p.source.toList) := by
    simp [Package.cursor]
  rw [text, List.splitOn_append_cons_self, List.splitOn_append_cons_self_of_not_mem arch,
    List.splitOn_eq_singleton plain]

/-- The cursor of a row is read back from the right, whatever its name holds. -/
theorem readAfter_cursor {p : Package} (posted : p.posted = true) :
    readAfter p.cursor = some ⟨p.name, p.repoArch.name, some p.source⟩ := by
  obtain ⟨named, sourced, -⟩ := Package.posted_source posted
  have some_ : 1 ≤ (p.name.toList.splitOn '/').length :=
    List.length_pos_iff.mpr (List.splitOn_ne_nil _ _)
  simp only [readAfter, splitOn_cursor posted, List.length_append, List.length_cons, List.length_nil,
    Nat.zero_add, Nat.reduceAdd]
  have name : joinParts ((p.name.toList.splitOn '/' ++ [p.repoArch.name.toList, p.source.toList]).take
      ((p.name.toList.splitOn '/').length + 2 - 2)) = p.name := by
    rw [Nat.add_sub_cancel, List.take_left, joinParts, List.intercalate_splitOn, String.ofList_toList]
  have arch : String.ofList ((p.name.toList.splitOn '/' ++ [p.repoArch.name.toList, p.source.toList]).getD
      ((p.name.toList.splitOn '/').length + 2 - 2) []) = p.repoArch.name := by
    rw [Nat.add_sub_cancel, List.getD_append_right _ _ _ _ (Nat.le_refl _), Nat.sub_self]
    exact String.ofList_toList
  have source : String.ofList ((p.name.toList.splitOn '/' ++ [p.repoArch.name.toList, p.source.toList]).getD
      ((p.name.toList.splitOn '/').length + 2 - 1) []) = p.source := by
    rw [Nat.add_sub_assoc (by decide), List.getD_append_right _ _ _ _ (Nat.le_add_right _ _),
      Nat.add_sub_cancel_left]
    exact String.ofList_toList
  rw [name, arch, source, if_pos ⟨by omega, by rw [isRepoArch_name]; rfl, sourced⟩, if_neg named]

/-- A row is after the cursor of another when its key is greater. -/
theorem before_iff {p q : Package} :
    (⟨p.name, p.repoArch.name, some p.source⟩ : After).before q = decide (p.rowKey < q.rowKey) := rfl

/-! ## Rows in order -/

theorem Package.slot_of_rowKey {p q : Package} (same : p.rowKey = q.rowKey) : p.slot = q.slot := by
  have parts := toLex.injective same
  simp only [Prod.mk.injEq] at parts
  obtain ⟨name, rest⟩ := parts
  have parts := toLex.injective rest
  simp only [Prod.mk.injEq] at parts
  obtain ⟨arch, source⟩ := parts
  have sameArch : p.repoArch = q.repoArch :=
    Option.some.inj (by rw [← isRepoArch_name, ← isRepoArch_name, arch])
  rw [Package.slot, Package.slot, source, name, sameArch]

/-- A selection holds at most one row of each source, name and architecture. -/
def Db.OneEach (db : Db) (ids : Finset PackageId) : Prop :=
  ∀ p ∈ db.packages, ∀ q ∈ db.packages, p.id ∈ ids → q.id ∈ ids → p.slot = q.slot → p.id = q.id

theorem Db.ascending_rows {db : Db} (distinct : (db.packages.map (·.id)).Nodup)
    {ids : Finset PackageId} (each : db.OneEach ids) (arch : Option Arch) :
    Ascending Package.rowKey (db.rowsInOrder ids arch) := by
  have perm := List.perm_insertionSort (fun a b : Package => a.rowKey ≤ b.rowKey)
    (db.packages.filter fun p => p.id ∈ ids && arch.all (· == p.repoArch))
  have sorted : (db.rowsInOrder ids arch).Pairwise fun a b => a.rowKey ≤ b.rowKey := by
    have : IsTrans Package fun a b => a.rowKey ≤ b.rowKey := ⟨fun _ _ _ => le_trans⟩
    have : Std.Total fun a b : Package => a.rowKey ≤ b.rowKey := ⟨fun a b => le_total _ _⟩
    exact List.pairwise_insertionSort _ _
  have nodup : (db.rowsInOrder ids arch).Nodup :=
    perm.nodup_iff.mpr ((List.Nodup.of_map _ distinct).filter _)
  -- equal keys are one slot, and of one slot there is one row
  refine (sorted.and nodup).imp_of_mem ?_
  rintro a b memA memB ⟨below, apart⟩
  refine lt_of_le_of_ne below fun same => apart ?_
  obtain ⟨inA, memberA⟩ := List.mem_filter.mp (perm.mem_iff.mp memA)
  obtain ⟨inB, memberB⟩ := List.mem_filter.mp (perm.mem_iff.mp memB)
  simp only [Bool.and_eq_true, decide_eq_true_eq] at memberA memberB
  exact List.inj_on_of_nodup_map distinct inA inB
    (each a inA b inB memberA.1 memberB.1 (Package.slot_of_rowKey same))

/-- The rows of a selection, of all the index ever held, in the order they are listed. -/
def listing (packages : List Package) (ids : Finset PackageId) (arch : Option Arch) : List Package :=
  ((rowsOf packages ids).filter fun p => arch.all (· == p.repoArch)).insertionSort
    fun a b => a.rowKey ≤ b.rowKey

/-- While a selection's packages are all there, its rows are those the index started with. -/
theorem Tallied.rowsInOrder {packages : List Package} (distinct : (packages.map (·.id)).Nodup)
    {floor : Ring → Nat} {w : World} (tallied : Tallied packages floor w) {ids : Finset PackageId}
    (present : w.db.Present ids) (arch : Option Arch) :
    w.db.rowsInOrder ids arch = listing packages ids arch := by
  rw [listing, ← joined_eq distinct tallied.fewer present, Db.rowsInOrder, Db.joined, List.filter_filter]
  congr 2
  funext p
  rw [Bool.and_comm]

/-! ## One request -/

section Request

variable {packages : List Package} (distinct : (packages.map (·.id)).Nodup)
  {more : (Ring → Nat) → World → Prop} (survives : Survives more)
  (counted : ∀ floor w, more floor w → Tallied packages floor w)

/-- The request for the page of a release after a cursor. -/
def pageOf (r : Release) (arch : Option Arch) (limit : Nat) (after : Option String) : GetRelease :=
  { ring := r.ring.name, arch := arch.map Arch.name, releaseId := some r.id, limit := some limit, after }

include survives distinct counted in
/-- What the members of a release list, read in order, in any store. -/
theorem rows_of_members (id : ReleaseId) (arch : Option Arch) {w : World} (sound : Sound more w) :
    (releaseMembers id).Spec (onItsOwn (Sound more)) w fun result w' =>
      Settled w w' ∧ Sound more w' ∧ ∀ members, result = .ok members → Listed w' id members ∧
        w'.db.rowsInOrder (members.rows w'.db) arch = listing packages (w.selection id) arch := by
  refine (sound_releaseMembers survives id sound).mono ?_
  rintro result w' ⟨settled, ⟨floor, inv, rest⟩, lists⟩
  refine ⟨settled, ⟨floor, inv, rest⟩, fun members ok => ⟨lists members ok, ?_⟩⟩
  have tallied := counted floor w' rest
  rw [inv.rows_of_listed (lists members ok),
    tallied.rowsInOrder distinct (tallied.present inv (lists members ok)), settled.selection]

theorem readArch_name (error : String) (arch : Option Arch) {inv : World → Prop} (w : World) :
    (readArch (arch.map Arch.name) error).Spec (onItsOwn inv) w fun result w' =>
      result = .ok arch ∧ w' = w := by
  cases arch with
  | none => exact ⟨rfl, rfl⟩
  | some arch =>
      simp only [readArch, Option.map_some, isRepoArch_name]
      exact ⟨rfl, rfl⟩

include survives in
theorem releaseCount_spec (release : Release) (arch : Option Arch) {w : World} (sound : Sound more w) :
    (releaseCount release arch).Spec (onItsOwn (Sound more)) w fun _ w' => Settled w w' ∧ Sound more w' := by
  unfold releaseCount
  split
  · exact ⟨Settled.refl w, sound⟩
  · exact ⟨Settled.refl w, sound⟩
  · refine Program.Spec.bind ((sound_releaseMembers survives release.id sound).mono ?_)
    rintro (error | members) w' ⟨settled, sound', -⟩
    · exact ⟨settled, sound'⟩
    · refine Program.spec_query (fun _ => trivial) ?_
      rintro _ rfl _ -
      exact ⟨settled, sound'⟩

include survives distinct counted in
theorem releaseManifests_spec (id : ReleaseId) (arch : Option Arch) {limit : Nat} (low : 1 ≤ limit)
    (last : Option Package) {w : World} (sound : Sound more w) :
    (releaseManifests id arch limit 0 (last.map fun p => ⟨p.name, p.repoArch.name, some p.source⟩)).Spec
      (onItsOwn (Sound more)) w fun result w' => Settled w w' ∧ Sound more w' ∧
        ∀ rows, result = .ok rows → (∃ members, Listed w' id members) ∧
          rows = pageAfter Package.rowKey limit (listing packages (w.selection id) arch) (last.map (·.rowKey)) := by
  unfold releaseManifests
  refine Program.Spec.bind ((rows_of_members distinct survives counted id arch sound).mono ?_)
  rintro (error | members) w' ⟨settled, sound', lists⟩
  · exact ⟨settled, sound', by simp⟩
  obtain ⟨listed, rows⟩ := lists members rfl
  refine Program.Spec.bind (Program.spec_query (fun _ => trivial) ?_)
  rintro _ rfl _ -
  refine ⟨settled, sound', ?_⟩
  rintro _ ⟨⟩
  refine ⟨⟨members, listed⟩, ?_⟩
  dsimp only
  rw [rows, if_neg (by omega), pageAfter]
  cases last with
  | none => simp
  | some p => simp [before_iff]

theorem filter_cursor (last : Option Package) :
    (last.map (·.cursor)).filter (· ≠ "") = last.map (·.cursor) := by
  cases last with
  | none => rfl
  | some p =>
      have some_ : p.cursor ≠ "" := by
        intro empty
        have := congrArg String.toList empty
        simp [Package.cursor] at this
      simp [some_]

theorem readAfter_cursors {last : Option Package} (posted : ∀ p ∈ last, p.posted = true) :
    (last.map (·.cursor)).bind readAfter = last.map fun p => ⟨p.name, p.repoArch.name, some p.source⟩ := by
  cases last with
  | none => rfl
  | some p => exact readAfter_cursor (posted p rfl)

theorem limit_of_page {limit : Nat} (low : 1 ≤ limit) (high : limit ≤ maxPage) :
    min (max 1 limit) maxPage = limit := by
  rw [max_eq_right low, min_eq_left high]

theorem pinned_of_mem {db : Db} (ordered : db.Ordered) {r : Release} (member : r ∈ db.releases) :
    db.pinned r.ring (some r.id) = some r := by
  simp [Db.pinned, ordered.release?_of_mem member]

include survives distinct counted in
/-- A page of a release, in any store it is asked of: the rows of its selection after the cursor. -/
theorem getRelease_page {w : World} (sound : Sound more w) {r : Release} (member : r ∈ w.db.releases)
    (arch : Option Arch) {limit : Nat} (low : 1 ≤ limit) (high : limit ≤ maxPage) (last : Option Package)
    (posted : ∀ p ∈ last, p.posted = true) :
    (handleGetRelease (pageOf r arch limit (last.map (·.cursor)))).Spec (onItsOwn (Sound more)) w
      fun result w' => Recounted w w' ∧ Sound more w' ∧ ∀ page, result = .ok page →
        (∃ members, Listed w' r.id members) ∧
        page.packages =
          pageAfter Package.rowKey limit (listing packages (w.selection r.id) arch) (last.map (·.rowKey)) ∧
        page.next = nextCursor limit page.packages := by
  have ⟨floor, inv, _⟩ := sound
  unfold handleGetRelease
  simp only [pageOf, isRing_name]
  refine Program.Spec.bind ((readArch_name _ arch w).mono ?_)
  rintro _ _ ⟨rfl, rfl⟩
  refine Program.Spec.bind (Program.spec_query (fun _ => trivial) ?_)
  rintro _ rfl _ -
  simp only [pinned_of_mem inv.ordered member]
  refine Program.Spec.bind ((releaseCount_spec survives r arch sound).mono ?_)
  rintro (error | total) w₁ ⟨settled₁, sound₁⟩
  · exact ⟨settled₁.toRecounted, sound₁, by simp⟩
  simp only [Option.elim_some, limit_of_page low high, filter_cursor, readAfter_cursors posted]
  rw [if_neg (by cases last <;> simp), if_neg (by omega)]
  refine Program.Spec.bind ((releaseManifests_spec distinct survives counted r.id arch low last sound₁).mono ?_)
  rintro (error | rows) w₂ ⟨settled₂, sound₂, page⟩
  · exact ⟨(settled₁.trans settled₂).toRecounted, sound₂, by simp⟩
  obtain ⟨⟨members, listed⟩, isPage⟩ := page rows rfl
  refine Program.Spec.bind ((releaseSummary_spec (sound_serves survives) r.id w₂).mono ?_)
  rintro (error | summary) w₃ ⟨later, sound₃⟩
  · exact ⟨(settled₁.trans settled₂).toRecounted.trans later, sound₃, by simp⟩
  refine ⟨(settled₁.trans settled₂).toRecounted.trans later, sound₃, ?_⟩
  rintro _ ⟨⟩
  refine ⟨⟨members, listed.later later⟩, ?_, rfl⟩
  rw [isPage, settled₁.selection]

end Request

/-! ## A release that can be listed again -/

/-- A checkpoint is near behind the release, and its packages are there. -/
structure Near (r : Release) (ids : Finset PackageId) (w : World) : Prop where
  known : Known w r
  base : ∃ base ∈ w.db.ofRing r.ring, Flagged w base.id ∧ base.seq ≤ r.seq ∧ r.seq < base.seq + checkpointEvery
  selection : w.selection r.id = ids
  present : w.db.Present ids

namespace Near

variable {r : Release} {ids : Finset PackageId} {w w' : World}

/-- It stays so while releases stay, flags are not taken back and no package goes. -/
theorem later (near : Near r ids w) (keeps : Keeps w w')
    (rows : ∀ q ∈ w.db.ofRing r.ring, ∃ q' ∈ w'.db.ofRing r.ring, q'.fixed = q.fixed)
    (flags : ∀ id, Flagged w id → Flagged w' id) (packages : w'.db.packages = w.db.packages) :
    Near r ids w' where
  known := keeps.known r near.known
  base := by
    obtain ⟨base, member, flag, below, within⟩ := near.base
    obtain ⟨base', member', eq⟩ := rows base member
    refine ⟨base', member', ?_, ?_, ?_⟩
    · rw [Release.id_eq eq]
      exact flags _ flag
    · rw [Release.seq_eq eq]
      exact below
    · rw [Release.seq_eq eq]
      exact within
  selection := by rw [keeps.selection r near.known, near.selection]
  present := by
    unfold Db.Present
    rw [packages]
    exact near.present

theorem stable (near : Near r ids w) (recounted : Recounted w w') : Near r ids w' := by
  refine near.later ⟨?_, fun _ _ => by rw [recounted.selection]⟩
    (fun q member => row_of_same recounted.releases member) recounted.flags recounted.packages
  rintro q ⟨row, member, eq⟩
  obtain ⟨row', member', eq'⟩ := recounted.releases.exists_fixed member
  exact ⟨row', member', eq'.trans eq⟩

theorem create (near : Near r ids w) (ordered : w.db.Ordered) (b : CreateBatch) :
    Near r ids (w.commit (w.db.applyRelease b)) := by
  refine near.later (Keeps.create ordered b) ?_ ?_ (by simp)
  · intro q member
    refine ⟨q, ?_, rfl⟩
    rw [World.commit_db, Db.applyRelease_ofRing]
    split
    · exact List.mem_append_left _ member
    · exact member
  · rintro id ⟨q, member, rest⟩
    exact ⟨q, by simp [member], rest⟩

theorem ensureCheckpoint (near : Near r ids w) {floor : Ring → Nat} (inv : Exact floor w) :
    ((OmarchyPool.ensureCheckpoint r.id).run w).1 = .ok () := by
  obtain ⟨row, member, eq⟩ := near.known
  obtain ⟨base, inRing, flag, below, within⟩ := near.base
  rw [← Release.ring_eq eq] at inRing
  rw [← Release.seq_eq eq] at below within
  rw [← Release.id_eq eq]
  refine @ensureCheckpoint_of_near (fun _ _ => True) (fun _ _ _ _ h => h) floor w inv trivial row member
    base inRing flag below within ?_
  rw [Release.id_eq eq, near.selection]
  exact near.present

end Near

/-! ## Requests that answer -/

/-- Alone, the program ends with an answer. -/
def Answers {α : Type} (p : Handler α) (w : World) : Prop := ∃ value, (p.run w).1 = .ok value

theorem Answers.bind {α β : Type} {p : Handler α} {rest : α → Handler β} {w : World} (first : Answers p w)
    (after : ∀ value, (p.run w).1 = .ok value → Answers (rest value) (p.run w).2) :
    Answers (p.bind rest) w := by
  obtain ⟨value, ok⟩ := first
  have spec : p.Spec (.alone World Event) w fun result w' =>
      match result with
      | .ok value => (rest value).Spec (.alone World Event) w' fun result' _ => ∃ value', result' = .ok value'
      | .error _ => False := by
    rw [Program.alone_iff, ok]
    exact Program.alone_iff.mpr (after value ok)
  have whole : (p.bind rest).Spec (.alone World Event) w fun result _ => ∃ value, result = .ok value := by
    refine Program.Spec.bind (spec.mono ?_)
    rintro (error | value) w' ended
    · exact ended.elim
    · exact ended
  exact Program.alone_iff.mp whole

theorem Answers.of_isOk {α : Type} {p : Handler α} {w : World} (isOk : (p.run w).1.isOk = true) :
    Answers p w := by
  unfold Answers
  cases result : (p.run w).1 with
  | error failure =>
      rw [result] at isOk
      cases isOk
  | ok value => exact ⟨value, rfl⟩

section Answering

variable {more : (Ring → Nat) → World → Prop} (survives : Survives more) {r : Release}
  {ids : Finset PackageId} (listable : ∀ floor w, more floor w → Near r ids w)

/-- What a program that meets its contract ends in, run on its own. -/
theorem ended {α : Type} {p : Handler α} {w : World} {post : Except Failure α → World → Prop}
    (sound : Sound more w) (spec : p.Spec (onItsOwn (Sound more)) w post) :
    post (p.run w).1 (p.run w).2 :=
  (Program.run_spec (c := onItsOwn (Sound more)) (fun _ => rfl) (fun _ _ => trivial) sound spec).2

include listable

theorem members_answers {w : World} (sound : Sound more w) : Answers (releaseMembers r.id) w := by
  have ⟨floor, inv, rest⟩ := sound
  refine Answers.bind ⟨_, rfl⟩ ?_
  intro head _
  cases head with
  | some ring => exact ⟨_, rfl⟩
  | none => exact Answers.bind ⟨(), (listable floor w rest).ensureCheckpoint inv⟩ fun _ _ => ⟨_, rfl⟩

theorem count_answers {release : Release} (same : release.id = r.id) (arch : Option Arch) {w : World}
    (sound : Sound more w) : Answers (releaseCount release arch) w := by
  unfold releaseCount
  split
  · exact ⟨_, rfl⟩
  · exact ⟨_, rfl⟩
  · rw [same]
    exact Answers.bind (members_answers listable sound) fun _ _ => ⟨_, rfl⟩

theorem summary_answers {w : World} (sound : Sound more w) : Answers (releaseSummary r.id) w := by
  refine Answers.bind ⟨_, rfl⟩ ?_
  intro counts _
  split
  · exact ⟨_, rfl⟩
  · exact Answers.bind (members_answers listable sound) fun _ _ => ⟨_, rfl⟩

include survives in
/-- A page of a release near a checkpoint is answered. -/
theorem getRelease_answers {packages : List Package} (distinct : (packages.map (·.id)).Nodup)
    (counted : ∀ floor w, more floor w → Tallied packages floor w) {w : World} (sound : Sound more w) {row : Release} (member : row ∈ w.db.releases)
    (same : row.id = r.id) (arch : Option Arch) {limit : Nat} (low : 1 ≤ limit) (high : limit ≤ maxPage)
    {last : Option Package} (posted : ∀ p ∈ last, p.posted = true) :
    Answers (handleGetRelease (pageOf row arch limit (last.map (·.cursor)))) w := by
  have ⟨floor, inv, _⟩ := sound
  unfold handleGetRelease
  simp only [pageOf, isRing_name]
  refine Answers.bind ⟨arch, (ended sound (readArch_name _ arch w)).1⟩ ?_
  intro arch' isArch
  obtain ⟨ok, still⟩ := ended sound (readArch_name "unknown arch" arch w)
  obtain rfl : arch = arch' := Except.ok.inj (ok.symm.trans isArch)
  rw [still]
  refine Answers.bind ⟨some row, by simp [D1.query, Program.query, Program.run, pinned_of_mem inv.ordered member]⟩ ?_
  intro found isFound
  obtain rfl : some row = found := by
    have := (congrArg Except.ok (pinned_of_mem inv.ordered member)).symm.trans isFound
    exact Except.ok.inj this
  refine Answers.bind (count_answers listable same arch sound) ?_
  intro total _
  have sound₁ := (ended sound (releaseCount_spec survives row arch sound)).2
  simp only [Option.elim_some, limit_of_page low high, filter_cursor, readAfter_cursors posted]
  rw [if_neg (by cases last <;> simp), if_neg (by omega), same]
  refine Answers.bind ?_ ?_
  · refine Answers.bind (members_answers listable sound₁) ?_
    exact fun _ _ => ⟨_, rfl⟩
  · intro rows _
    have sound₂ := (ended sound₁ (releaseManifests_spec distinct survives counted r.id arch low last sound₁)).2.1
    exact Answers.bind (summary_answers listable sound₂) fun _ _ => ⟨_, rfl⟩

end Answering

/-! ## The walk -/

/-- Operations one after another. -/
def serveAll (ops : List Op) (w : World) : World := ops.foldl (fun w op => (op.serve.run w).2) w

/-- Follows `page.next` from a cursor until it is null, over `fuel` pages at most, with the operations
`moves n` after page `n`: the rows of the pages, if the last one was reached. -/
def follow (r : Release) (arch : Option Arch) (limit : Nat) (moves : Nat → List Op) :
    Nat → Nat → Option String → World → Except Failure (Option (List Package))
  | 0, _, _, _ => .ok none
  | fuel + 1, n, after, w =>
      match (handleGetRelease (pageOf r arch limit after)).run w with
      | (.error failure, _) => .error failure
      | (.ok page, w') =>
          match page.next with
          | none => .ok (some page.packages)
          | some next =>
              (follow r arch limit moves fuel (n + 1) (some next) (serveAll (moves n) w')).map
                (·.map (page.packages ++ ·))

/-- The release is there, with its selection. -/
structure Held (r : Release) (ids : Finset PackageId) (w : World) : Prop where
  known : Known w r
  selection : w.selection r.id = ids

theorem Held.later {r : Release} {ids : Finset PackageId} {w w' : World} (held : Held r ids w)
    (keeps : Keeps w w') : Held r ids w' :=
  ⟨keeps.known r held.known, (keeps.selection r held.known).trans held.selection⟩

section Walk

variable {packages : List Package} (distinct : (packages.map (·.id)).Nodup)
  (posted : ∀ p ∈ packages, p.posted = true) {more : (Ring → Nat) → World → Prop} (survives : Survives more)
  (counted : ∀ floor w, more floor w → Tallied packages floor w) {r : Release} {ids : Finset PackageId}
  (held : ∀ floor w, more floor w → Held r ids w) {arch : Option Arch} {limit : Nat} (low : 1 ≤ limit)
  (high : limit ≤ maxPage) (ascending : Ascending Package.rowKey (listing packages ids arch))
  {moves : Nat → List Op}
  (between : ∀ n, ∀ op ∈ moves n, ∀ w, Sound more w → Sound more (op.serve.run w).2)

theorem pageOf_of_fixed {row : Release} (same : row.fixed = r.fixed) (after : Option String) :
    pageOf row arch limit after = pageOf r arch limit after := by
  rw [pageOf, pageOf, Release.ring_eq same, Release.id_eq same]

include between in
theorem serveAll_sound (n : Nat) {w : World} (sound : Sound more w) : Sound more (serveAll (moves n) w) := by
  have each := between n
  unfold serveAll
  generalize moves n = ops at each
  induction ops generalizing w with
  | nil => exact sound
  | cons op rest ih =>
      rw [List.foldl_cons]
      exact ih (each op (by simp) w sound) fun op' member => each op' (List.mem_cons_of_mem _ member)

include posted in
theorem posted_of_listing {done rest : List Package} (split : listing packages ids arch = done ++ rest) :
    ∀ p ∈ done.getLast?, p.posted = true := by
  intro p isLast
  have member : p ∈ listing packages ids arch := by
    rw [split]
    exact List.mem_append_left _ (List.mem_of_getLast? isLast)
  have inRows := (List.mem_filter.mp ((List.perm_insertionSort _ _).mem_iff.mp member)).1
  exact posted p (List.mem_filter.mp inRows).1

include distinct posted survives counted held low high ascending in
/-- One request of the walk, with `done` visited and `rest` to come. -/
theorem follow_page {w : World} (sound : Sound more w) {done rest : List Package}
    (split : listing packages ids arch = done ++ rest) :
    ∃ result w', (handleGetRelease (pageOf r arch limit (done.getLast?.map (·.cursor)))).run w = (result, w') ∧
      Recounted w w' ∧ Sound more w' ∧ ∀ page, result = .ok page →
        (∃ members, Listed w' r.id members) ∧ page.packages = rest.take limit ∧
        page.next = nextCursor limit page.packages := by
  have ⟨floor, inv, others⟩ := sound
  obtain ⟨⟨row, member, same⟩, selection⟩ := held floor w others
  have spec := getRelease_page distinct survives counted sound member arch low high done.getLast?
    (posted_of_listing posted split)
  rw [pageOf_of_fixed same, Release.id_eq same, selection] at spec
  obtain ⟨later, sound', page⟩ := ended sound spec
  refine ⟨_, _, rfl, later, sound', fun answer isPage => ?_⟩
  obtain ⟨listed, isRows, isNext⟩ := page answer isPage
  refine ⟨listed, ?_, isNext⟩
  rw [isRows, split]
  rw [split] at ascending
  exact pageAfter_append ascending limit

include low in
/-- The last page is the short one; the cursor after any other is that of all visited so far. -/
theorem nextCursor_take (done rest : List Package) :
    (rest.length < limit ∧ nextCursor limit (rest.take limit) = none ∧ rest.take limit = rest) ∨
    (limit ≤ rest.length ∧ ∃ next, nextCursor limit (rest.take limit) = some next ∧
      (done ++ rest.take limit).getLast?.map (·.cursor) = some next) := by
  by_cases short : rest.length < limit
  · refine .inl ⟨short, ?_, List.take_of_length_le (by omega)⟩
    rw [nextCursor, if_neg (by rw [List.length_take]; omega)]
  · have long : limit ≤ rest.length := by omega
    have length : (rest.take limit).length = limit := by rw [List.length_take, min_eq_left long]
    obtain ⟨last, isLast⟩ : ∃ last, (rest.take limit).getLast? = some last := by
      cases isLast : (rest.take limit).getLast? with
      | some last => exact ⟨last, rfl⟩
      | none =>
          rw [List.getLast?_eq_none_iff.mp isLast, List.length_nil] at length
          omega
    refine .inr ⟨long, last.cursor, ?_, ?_⟩
    · rw [nextCursor, if_pos ⟨by omega, length⟩, isLast]
      rfl
    · rw [List.getLast?_append, isLast]
      rfl

theorem follow_answered {fuel n : Nat} {after : Option String} {w : World} {visited : List Package}
    (ends : follow r arch limit moves fuel n after w = .ok (some visited)) :
    ∃ left, fuel = left + 1 ∧ Answers (handleGetRelease (pageOf r arch limit after)) w := by
  cases fuel with
  | zero => cases ends
  | succ left =>
      refine ⟨left, rfl, ?_⟩
      rw [follow] at ends
      split at ends
      · cases ends
      · rename_i page w' ran
        exact ⟨page, by rw [ran]⟩

include distinct posted survives counted held low high ascending in
/-- The walk from an answered page on: it was the last one, or the walk goes on after it. -/
theorem follow_succ (moves : Nat → List Op) (fuel n : Nat) {w : World} (sound : Sound more w) {done rest : List Package}
    (split : listing packages ids arch = done ++ rest)
    (answered : Answers (handleGetRelease (pageOf r arch limit (done.getLast?.map (·.cursor)))) w) :
    ∃ w' members, Recounted w w' ∧ Sound more w' ∧ Listed w' r.id members ∧
      ((rest.length < limit ∧
        follow r arch limit moves (fuel + 1) n (done.getLast?.map (·.cursor)) w = .ok (some rest)) ∨
      (limit ≤ rest.length ∧
        follow r arch limit moves (fuel + 1) n (done.getLast?.map (·.cursor)) w =
          (follow r arch limit moves fuel (n + 1) ((done ++ rest.take limit).getLast?.map (·.cursor))
            (serveAll (moves n) w')).map (·.map (rest.take limit ++ ·)))) := by
  obtain ⟨result, w', ran, later, sound', page⟩ :=
    follow_page distinct posted survives counted held low high ascending sound split
  obtain ⟨answer, ok⟩ := answered
  rw [ran] at ok
  obtain rfl : result = .ok answer := ok
  obtain ⟨⟨members, listed⟩, isRows, isNext⟩ := page answer rfl
  refine ⟨w', members, later, sound', listed, ?_⟩
  rw [follow, ran]
  rw [isRows] at isNext
  rcases nextCursor_take low done rest with ⟨short, isLast, whole⟩ | ⟨long, next, isMore, cursor⟩
  · refine .inl ⟨short, ?_⟩
    rw [isLast] at isNext
    simp only [isNext, isRows, whole]
  · refine .inr ⟨long, ?_⟩
    rw [isMore] at isNext
    simp only [isNext, isRows, cursor]

theorem split_further {list done rest : List Package} (split : list = done ++ rest) (limit : Nat) :
    list = (done ++ rest.take limit) ++ rest.drop limit := by
  rw [split, List.append_assoc, List.take_append_drop]

include distinct posted survives counted held low high ascending between in
/-- A walk that ends has visited what was to come, in order. -/
theorem follow_visits (fuel n : Nat) {w : World} (sound : Sound more w) {done rest visited : List Package}
    (split : listing packages ids arch = done ++ rest)
    (ends : follow r arch limit moves fuel n (done.getLast?.map (·.cursor)) w = .ok (some visited)) :
    visited = rest := by
  induction fuel generalizing n w done rest visited with
  | zero => cases ends
  | succ fuel ih =>
      obtain ⟨-, -, answered⟩ := follow_answered ends
      obtain ⟨w', -, -, sound', -, ⟨-, isRest⟩ | ⟨-, goesOn⟩⟩ := follow_succ distinct posted survives
        counted held low high ascending moves fuel n sound split answered
      · rw [isRest] at ends
        exact (Option.some.inj (Except.ok.inj ends)).symm
      · rw [goesOn] at ends
        have sound'' := serveAll_sound between n sound'
        generalize walked : follow r arch limit moves fuel (n + 1) _ _ = others at ends
        match others with
        | .error failure => cases ends
        | .ok none => cases ends
        | .ok (some others) =>
            have isRest := ih (n + 1) sound'' (split_further split limit) walked
            have whole : rest.take limit ++ others = visited := Option.some.inj (Except.ok.inj ends)
            rw [← whole, isRest, List.take_append_drop]

include distinct posted survives counted held low high ascending between in
/-- Where every page is answered the walk ends, within a page for each `limit` rows and one more. -/
theorem follow_ends (answers : ∀ w, Sound more w → ∀ last : Option Package, (∀ p ∈ last, p.posted = true) →
      Answers (handleGetRelease (pageOf r arch limit (last.map (·.cursor)))) w)
    (fuel n : Nat) {w : World} (sound : Sound more w) {done rest : List Package}
    (split : listing packages ids arch = done ++ rest) (enough : rest.length < fuel * limit) :
    follow r arch limit moves fuel n (done.getLast?.map (·.cursor)) w = .ok (some rest) := by
  induction fuel generalizing n w done rest with
  | zero => omega
  | succ fuel ih =>
      have answered := answers w sound done.getLast? (posted_of_listing posted split)
      obtain ⟨w', -, -, sound', -, ⟨-, isRest⟩ | ⟨long, goesOn⟩⟩ := follow_succ distinct posted survives
        counted held low high ascending moves fuel n sound split answered
      · exact isRest
      · have fewer : (rest.drop limit).length < fuel * limit := by
          rw [List.length_drop]
          rw [Nat.succ_mul] at enough
          omega
        rw [goesOn, ih (n + 1) (serveAll_sound between n sound') (split_further split limit) fewer]
        show Except.ok (some (rest.take limit ++ rest.drop limit)) = _
        rw [List.take_append_drop]

end Walk

/-! ## Pages of any store a run reaches -/

/-- What a GC leaves of the releases, whatever it takes. -/
theorem gc_releases (params : GcParams) {floor : Ring → Nat} {w : World} (inv : Exact floor w) :
    ∃ retained low bound, Retains w.db (max 1 params.keep) retained rings.reverse low bound ∧
      Exact (fun ring => max (floor ring) (bound ring)) ((handleGc params).run w).2 ∧
      ((handleGc params).run w).2.db.releases = (w.db.pruneFlags retained.keptCheckpoints).releases ∧
      w.db.SameReleases ((handleGc params).run w).2.db ∧
      ((handleGc params).run w).2.selection = w.selection := by
  obtain ⟨retained, low, bound, pruned, retains, isPruned, ended⟩ := gc_run params inv.ordered
  rw [ended]
  generalize sliceTo (min params.limit 500) (w.db.unreferenced retained params.cutoff) = list
  have swept := Program.alone_iff.mp (deleteVictims_swept list ⟨0, 0, 0, 0⟩ pruned)
  generalize ((deleteVictims list ⟨0, 0, 0, 0⟩).run pruned).2 = after at swept
  have releases : after.db.releases = (w.db.pruneFlags retained.keptCheckpoints).releases := by
    rw [swept.rest]
    exact isPruned.releases
  refine ⟨retained, low, bound, retains, (inv.pruned retains isPruned).swept swept, releases, ?_,
    swept.selection.trans isPruned.selection⟩
  refine ⟨?_, by rw [swept.rest, isPruned.rest], by rw [swept.rest, isPruned.rest]⟩
  rw [releases]
  exact (Db.sameReleases_pruneFlags w.db retained.keptCheckpoints).rows

theorem Held.gc {r : Release} {ids : Finset PackageId} {floor : Ring → Nat} {w : World} (held : Held r ids w)
    (inv : Exact floor w) (params : GcParams) : Held r ids ((handleGc params).run w).2 := by
  obtain ⟨-, -, -, -, -, -, same, selection⟩ := gc_releases params inv
  obtain ⟨row, member, eq⟩ := held.known
  obtain ⟨row', member', eq'⟩ := same.exists_fixed member
  exact ⟨⟨row', member', eq'.trans eq⟩, by rw [selection, held.selection]⟩

theorem held_survives (r : Release) (ids : Finset PackageId) : Survives fun _ => Held r ids := by
  refine .of_recounted ?_
  rintro - w w' recounted ⟨⟨row, member, eq⟩, selection⟩
  obtain ⟨row', member', eq'⟩ := recounted.releases.exists_fixed member
  exact ⟨⟨row', member', eq'.trans eq⟩, by rw [recounted.selection, selection]⟩

/-- In every store a sequence of operations reaches a checkpoint is near each ring's head. -/
theorem dense_of_sequence {packages : List Package} {bucket : String → Option Blob} {w : World}
    (reached : Sequence Op.serve (fun _ _ => True) (World.fresh packages bucket) w) : Sound (Dense 1) w := by
  refine reached.induct (Sound (Dense 1)) ⟨_, Exact.fresh packages bucket, Dense.fresh packages bucket 1⟩ ?_
  intro op w _ sound
  refine sound_op (.of_recounted (Dense.stable 1)) ?_ op ?_ sound
  · intro body floor reads now hold inv dense next parent
    exact dense_create (Nat.le_refl 1) (fun _ _ dense => dense) body hold inv dense next parent
  · intro params _
    obtain ⟨floor, inv, dense⟩ := sound
    obtain ⟨retained, low, bound, retains, inv', releases, same, -⟩ := gc_releases params inv
    exact ⟨_, inv', dense.pruned inv (Nat.le_max_left 1 params.keep) retains releases same⟩

/-- A release that was just listed has a checkpoint near behind it. -/
theorem Near.of_listed {packages : List Package} {w : World} {r : Release} {members : Members}
    (known : Known w r) (listed : Listed w r.id members) (tallied : Sound (Tallied packages) w)
    (dense : ∃ floor, Dense 1 floor w) : Near r (w.selection r.id) w := by
  obtain ⟨floor, inv, tallied⟩ := tallied
  refine ⟨known, ?_, rfl, tallied.present inv listed⟩
  obtain ⟨row, member, eq⟩ := known
  have inRing : row ∈ w.db.ofRing r.ring := Db.mem_ofRing.mpr ⟨member, Release.ring_eq eq⟩
  have seq := Release.seq_eq eq
  cases listed with
  | @live ring head =>
      -- the head is its ring's last release, and GC leaves a checkpoint near that
      obtain ⟨q, inHead, sameId, isLast⟩ := inv.ordered.head_row head
      obtain rfl := inv.ordered.eq_of_id (Db.mem_ofRing.mp inHead).1 member
        (sameId.trans (Release.id_eq eq).symm)
      obtain ⟨floor', near, dense⟩ := dense
      have bounds := inv.ordered.seq_le inHead
      have sameRing : r.ring = ring := (Release.ring_eq eq).symm.trans (Db.mem_ofRing.mp inHead).2
      rw [sameRing, ← seq]
      have := near ring
      exact dense ring q.seq (by omega) (by omega) (by omega)
  | rows flagged =>
      refine ⟨row, inRing, ?_, by omega, by rw [seq, checkpointEvery]; omega⟩
      rw [Release.id_eq eq]
      exact flagged

section Pages

variable {packages : List Package} {bucket : String → Option Blob} (distinct : (packages.map (·.id)).Nodup)
  (posted : ∀ p ∈ packages, p.posted = true) {w : World}
  (reached : Sequence Op.serve (fun _ _ => True) (World.fresh packages bucket) w) {r : Release}
  (member : r ∈ w.db.releases) {arch : Option Arch} {limit : Nat} (low : 1 ≤ limit) (high : limit ≤ maxPage)

include distinct reached member low high in
/-- Once a page is answered the selection's packages are all there. -/
theorem rows_of_answered (answered : Answers (handleGetRelease (pageOf r arch limit none)) w) :
    listing packages (w.selection r.id) arch = w.db.rowsInOrder (w.selection r.id) arch := by
  have tallied := tallied_of_sequence distinct reached
  have ⟨floor, inv, tally⟩ := tallied
  obtain ⟨page, ok⟩ := answered
  obtain ⟨later, ⟨floor', inv', tally'⟩, isPage⟩ := ended tallied (getRelease_page distinct
    (tallied_survives distinct) (fun _ _ => id) tallied member arch low high none (by simp))
  obtain ⟨⟨members, listed⟩, -, -⟩ := isPage page ok
  have present := tally'.present inv' listed
  unfold Db.Present at present
  rw [later.packages, later.selection] at present
  exact (tally.rowsInOrder distinct present arch).symm

include distinct in
/-- Every operation keeps the release with its selection. -/
theorem held_op (ids : Finset PackageId) (op : Op) {w : World}
    (sound : Sound (fun floor w => Tallied packages floor w ∧ Held r ids w) w) :
    Sound (fun floor w => Tallied packages floor w ∧ Held r ids w) (op.serve.run w).2 := by
  refine sound_op ((tallied_survives distinct).and (held_survives r ids)) ?_ op ?_ sound
  · intro body
    refine (tallied_create packages body).and ?_
    intro _ reads now _ inv held _ _
    exact held.later (Keeps.create inv.ordered _)
  · intro params _
    have ⟨_, inv, tallied, held⟩ := sound
    obtain ⟨floor, inv', tallied'⟩ := tallied_gc params (sound.mono fun _ _ => And.left)
    exact ⟨floor, inv', tallied', held.gc inv params⟩

/-- No GC among the operations. -/
def Op.keepsAll : Op → Bool
  | .gc _ => false
  | _ => true

theorem near_survives (r : Release) (ids : Finset PackageId) : Survives fun _ => Near r ids :=
  .of_recounted fun _ _ _ recounted near => near.stable recounted

include distinct in
/-- Every operation but GC leaves a checkpoint near behind the release. -/
theorem near_op (ids : Finset PackageId) {op : Op} (keepsAll : op.keepsAll = true) {w : World}
    (sound : Sound (fun floor w => Tallied packages floor w ∧ Near r ids w) w) :
    Sound (fun floor w => Tallied packages floor w ∧ Near r ids w) (op.serve.run w).2 := by
  refine sound_op ((tallied_survives distinct).and (near_survives r ids)) ?_ op ?_ sound
  · intro body
    refine (tallied_create packages body).and ?_
    intro _ reads now _ inv near _ _
    exact near.create inv.ordered _
  · rintro params rfl
    cases keepsAll

variable (moves : Nat → List Op)
  (ascending : Ascending Package.rowKey (listing packages (w.selection r.id) arch))

include distinct posted reached member low high ascending in
theorem walk_visits {fuel : Nat} {visited : List Package}
    (ends : follow r arch limit moves fuel 0 none w = .ok (some visited)) :
    visited = listing packages (w.selection r.id) arch := by
  obtain ⟨floor, inv, tallied⟩ := tallied_of_sequence distinct reached
  refine follow_visits distinct posted ((tallied_survives distinct).and (held_survives r _))
    (fun _ _ => And.left) (fun _ _ => And.right) low high ascending
    (fun _ op _ _ => held_op distinct (w.selection r.id) op) fuel 0
    ⟨floor, inv, tallied, Known.of_mem member, rfl⟩
    (show listing packages (w.selection r.id) arch = [] ++ listing packages (w.selection r.id) arch from rfl) ends

include distinct posted reached member low high ascending in
theorem walk_ends (answered : Answers (handleGetRelease (pageOf r arch limit none)) w)
    (keepsAll : ∀ n, ∀ op ∈ moves n, op.keepsAll = true) {fuel : Nat}
    (enough : (listing packages (w.selection r.id) arch).length / limit < fuel) :
    follow r arch limit moves fuel 0 none w = .ok (some (listing packages (w.selection r.id) arch)) := by
  obtain ⟨left, rfl⟩ := Nat.exists_eq_add_one_of_ne_zero (Nat.ne_zero_of_lt enough)
  obtain ⟨floor, inv, tallied⟩ := tallied_of_sequence distinct reached
  have ⟨floor', _, dense⟩ := dense_of_sequence reached
  have enough : (listing packages (w.selection r.id) arch).length < (left + 1) * limit :=
    (Nat.div_lt_iff_lt_mul low).mp enough
  have split : listing packages (w.selection r.id) arch = [] ++ listing packages (w.selection r.id) arch := rfl
  have held : Held r (w.selection r.id) w := ⟨Known.of_mem member, rfl⟩
  obtain ⟨w', members, later, ⟨floor₁, inv₁, tallied₁, held₁⟩, listed, ⟨-, whole⟩ | ⟨long, goesOn⟩⟩ :=
    follow_succ distinct posted ((tallied_survives distinct).and (held_survives r _)) (fun _ _ => And.left)
      (fun _ _ => And.right) low high ascending moves left 0 ⟨floor, inv, tallied, held⟩ split answered
  · exact whole
  · -- the first page left a checkpoint near behind the release, and nothing but GC takes it
    have near : Near r (w.selection r.id) w' := by
      rw [← held₁.selection]
      exact Near.of_listed held₁.known listed ⟨floor₁, inv₁, tallied₁⟩ ⟨floor', dense.stable _ _ _ _ later⟩
    have between : ∀ n, ∀ op ∈ moves n, ∀ w', Sound (fun floor w' => Tallied packages floor w' ∧
        Near r (w.selection r.id) w') w' → Sound (fun floor w' => Tallied packages floor w' ∧
        Near r (w.selection r.id) w') (op.serve.run w').2 :=
      fun n op inMoves w' => near_op distinct (w.selection r.id) (keepsAll n op inMoves)
    have survives := (tallied_survives distinct).and (near_survives r (w.selection r.id))
    have fewer : ((listing packages (w.selection r.id) arch).drop limit).length < left * limit := by
      rw [List.length_drop]
      rw [Nat.succ_mul] at enough
      omega
    have onward := follow_ends distinct posted survives (fun _ _ => And.left)
      (fun _ _ rest => ⟨rest.2.known, rest.2.selection⟩) low high ascending between ?_ left (0 + 1)
      (serveAll_sound between 0 ⟨floor₁, inv₁, tallied₁, near⟩) (split_further split limit) fewer
    · rw [show (none : Option String) = ([] : List Package).getLast?.map (·.cursor) from rfl, goesOn, onward]
      show Except.ok (some (List.take limit _ ++ List.drop limit _)) = _
      rw [List.take_append_drop]
    · intro w'' sound last isPosted
      have ⟨floor₂, inv₂, _, near₂⟩ := sound
      obtain ⟨row, inTable, eq⟩ := near₂.known
      have answers := getRelease_answers survives (fun _ _ => And.right) distinct (fun _ _ => And.left) sound
        inTable (Release.id_eq eq) arch low high isPosted
      rwa [pageOf_of_fixed eq] at answers

end Pages

/-- A walk over the pages of a release, after any run over an index of posted packages and with any
operations between the pages.  The rows of the selection are listed in the strict order of their keys;
a walk that ends visited exactly them; and one whose first page was answered ends, whatever releases
are made meanwhile, with a page for each `limit` rows and one more at most. -/
theorem pages_exact {packages : List Package} {bucket : String → Option Blob}
    (distinct : (packages.map (·.id)).Nodup) (posted : ∀ p ∈ packages, p.posted = true) {w : World}
    (reached : Sequence Op.serve (fun _ _ => True) (World.fresh packages bucket) w) {r : Release}
    (member : r ∈ w.db.releases) (each : w.db.OneEach (w.selection r.id)) (arch : Option Arch) {limit : Nat}
    (low : 1 ≤ limit) (high : limit ≤ maxPage) (moves : Nat → List Op) :
    (Ascending Package.rowKey (w.db.rowsInOrder (w.selection r.id) arch) ∧
      ∀ p, p ∈ w.db.rowsInOrder (w.selection r.id) arch ↔
        p ∈ w.db.packages ∧ p.id ∈ w.selection r.id ∧ ∀ a, arch = some a → p.repoArch = a) ∧
    (∀ fuel visited, follow r arch limit moves fuel 0 none w = .ok (some visited) →
      visited = w.db.rowsInOrder (w.selection r.id) arch) ∧
    (Answers (handleGetRelease (pageOf r arch limit none)) w →
      (∀ n, ∀ op ∈ moves n, op.keepsAll = true) →
      ∀ fuel, (w.db.rowsInOrder (w.selection r.id) arch).length / limit < fuel →
        follow r arch limit moves fuel 0 none w = .ok (some (w.db.rowsInOrder (w.selection r.id) arch))) := by
  have ⟨floor, inv, tallied⟩ := tallied_of_sequence distinct reached
  have ascending := Db.ascending_rows (distinct.sublist (tallied.fewer.map _)) each arch
  refine ⟨⟨ascending, w.db.mem_rowsInOrder (w.selection r.id) arch⟩, ?_, ?_⟩
  · intro fuel visited ends
    obtain ⟨-, -, answered⟩ := follow_answered ends
    have rows := rows_of_answered distinct reached member low high answered
    rw [← rows] at ascending ⊢
    exact walk_visits distinct posted reached member low high moves ascending ends
  · intro answered keepsAll fuel enough
    have rows := rows_of_answered distinct reached member low high answered
    rw [← rows] at ascending enough ⊢
    exact walk_ends distinct posted reached member low high moves ascending answered keepsAll enough

/-- Packages of two sources, one under both and one with the separator in its name. -/
def pagedIndex : List Package :=
  [.sample 1 'a' "extra" "bash", .sample 2 'b' "core" "bash", .sample 3 'c' "core" "lib/x",
    .sample 4 'd' "core" "nano"]

def pagedRelease : Op :=
  .create { ring := "edge", add := [Package.sampleHash 'a', Package.sampleHash 'b', Package.sampleHash 'c'] }

/-- The head moves on after the first page. -/
def pagedMoves (n : Nat) : List Op :=
  if n = 0 then [.create { ring := "edge", add := [Package.sampleHash 'd'] }] else []

def pagedWorld : World := serveAll [pagedRelease] (World.fresh pagedIndex fun _ => none)

theorem pagedWorld_releases : pagedWorld.db.releases ≠ [] := by decide

def pagedHead : Release := pagedWorld.db.releases.head pagedWorld_releases

theorem pages_exact_pagedMoves :
    Sequence Op.serve (fun _ _ => True) (World.fresh pagedIndex fun _ => none) pagedWorld ∧
      (pagedWorld.db.rowsInOrder (pagedWorld.selection pagedHead.id) none).map (·.id) = [2, 1, 3] ∧
      Ascending Package.rowKey (pagedWorld.db.rowsInOrder (pagedWorld.selection pagedHead.id) none) ∧
      follow pagedHead none 1 pagedMoves 4 0 none pagedWorld =
        .ok (some (pagedWorld.db.rowsInOrder (pagedWorld.selection pagedHead.id) none)) := by
  have reached : Sequence Op.serve (fun _ _ => True) (World.fresh pagedIndex fun _ => none) pagedWorld :=
    Runs.start.steps [pagedRelease] (by decide)
  have each : pagedWorld.db.OneEach (pagedWorld.selection pagedHead.id) := by
    unfold Db.OneEach
    decide
  obtain ⟨⟨ascending, -⟩, -, ends⟩ := pages_exact (by decide) (by decide) reached
    (List.head_mem pagedWorld_releases) each none (Nat.le_refl 1) (by decide) pagedMoves
  refine ⟨reached, by decide, ascending, ends ?_ ?_ 4 (by decide)⟩
  · exact .of_isOk (by decide)
  · intro n op member
    unfold pagedMoves at member
    split at member <;> simp_all [Op.keepsAll]

end OmarchyPool
