/-
# OmarchyPool.Requests -- what a request to create a release holds when its batch runs

`handleCreateRelease` reads the source, the head, the adds, the seq and the base one after
the other, and only then runs its batch.  `Reads` is what one request read and the worlds it
read it in; `Reads.Hold` says how those worlds follow one another, under whatever contract
the request runs.  `create_spec` is the one walk through the handler: a contract that is
kept by the batch of every such `Reads` is kept by the request.

Everything about releases made one at a time, or by any number of requests at once, is an
instance of it.
-/
import OmarchyPool.Ordered

namespace OmarchyPool

open Lib

set_option autoImplicit false

/-! ## The history -/

namespace World

theorem commit_selection_of_same {w : World} {db : Db} (same : w.db.SameReleases db) :
    (w.commit db).selection = w.selection := by
  funext id
  have presence := same.release?_isNone id
  simp only [commit]
  cases found : db.release? id with
  | none => rfl
  | some r =>
      rw [found] at presence
      simp [← presence]

theorem commit_selection_applyRelease {w : World} (ordered : w.db.Ordered) (b : CreateBatch) :
    (w.commit (w.db.applyRelease b)).selection =
      Function.update w.selection w.db.nextRelease (b.target w.db) := by
  funext id
  simp only [commit, ordered.applyRelease_release?]
  by_cases same : id = w.db.nextRelease
  · subst same
    simp [ordered.release?_nextRelease, CreateBatch.row]
  · rw [if_neg same, Function.update_of_ne same]
    cases w.db.release? id <;> simp

@[simp] theorem commit_self (w : World) : w.commit w.db = w := by
  cases w with
  | mk db selection =>
      simp only [commit, mk.injEq, true_and]
      funext id
      cases db.release? id <;> simp

end World

/-! ## What a reconstruction writes -/

/-- A reconstruction only reads, and makes releases checkpoints. -/
def Reconstructs (_ : Event) (write : World → World) : Prop :=
  write = id ∨ ∃ release ids, write = fun w => w.commit (w.db.materialise release ids)

theorem only_query {α : Type} (event : Event) (read : Db → α) :
    (D1.query event read).Only Reconstructs := Program.Only.query (.inl rfl)

theorem walk_only (releaseId : ReleaseId) (room : Nat) (chain : List Release) (cur : Release) :
    (walk releaseId room chain cur).Only Reconstructs := by
  induction room generalizing chain cur with
  | zero =>
      unfold walk
      split
      · trivial
      split
      · trivial
      refine (only_query _ _).bind fun parent => ?_
      cases parent <;> trivial
  | succ room ih =>
      unfold walk
      split
      · trivial
      split
      · trivial
      refine (only_query _ _).bind fun parent => ?_
      cases parent with
      | none => trivial
      | some parent => exact ih _ _

theorem replay_only (base : ReleaseId) (chain : List Release) :
    (replay base chain).Only Reconstructs := by
  induction chain with
  | nil => exact only_query _ _
  | cons r older ih => exact ih.bind fun _ => (only_query _ _).bind fun _ => trivial

theorem checkPresent_only (releaseId : ReleaseId) (list : List (List PackageId)) :
    (checkPresent releaseId list).Only Reconstructs := by
  induction list with
  | nil => trivial
  | cons chunk rest ih =>
      unfold checkPresent
      refine (only_query _ _).bind fun present => ?_
      split
      · trivial
      · exact ih

theorem ensureCheckpoint_only (releaseId : ReleaseId) :
    (ensureCheckpoint releaseId).Only Reconstructs := by
  have written : ∀ base ids, (writeCheckpoint releaseId base ids).Only Reconstructs := fun _ ids =>
    (checkPresent_only releaseId _).bind fun _ => Program.Only.exec (.inr ⟨releaseId, ids, rfl⟩)
  unfold ensureCheckpoint
  refine (only_query _ _).bind fun start => ?_
  cases start with
  | none => trivial
  | some start =>
      dsimp only
      split
      · trivial
      refine (only_query _ _).bind fun head => ?_
      cases head with
      | some ring => exact (only_query _ _).bind fun ids => written _ ids
      | none =>
          exact (walk_only _ _ _ _).bind fun chain =>
            (replay_only _ _).bind fun ids => written _ ids

/-! ## What the reads give -/

@[simp] theorem isRepoArch_name (arch : Arch) : isRepoArch arch.name = some arch := by cases arch <;> decide

theorem Arch.name_injective {arch arch' : Arch} (same : arch.name = arch'.name) : arch = arch' := by
  revert same
  cases arch <;> cases arch' <;> decide

@[simp] theorem isRing_name (ring : Ring) : isRing ring.name = some ring := by cases ring <;> decide

/-- The source of a request, as the index it was read in had it. -/
inductive SourceRead (body : CreateRelease) (ring : Ring) (db : Db) : Option Release → Prop where
  | none : body.fromReleaseId = none → body.fromRing = none → SourceRead body ring db none
  | release {id : ReleaseId} {source : Release} : body.fromReleaseId = some id →
      db.release? id = some source → source.ring = ring → SourceRead body ring db (some source)
  | head {name : String} {fromRing : Ring} {source : Release} : body.fromReleaseId = none →
      body.fromRing = some name → isRing name = some fromRing → fromRing ≠ .lab → ring ≠ .lab →
      db.ringHead fromRing = some source → SourceRead body ring db (some source)

/-- The ids `add` names in an index. -/
def Db.addedIds (db : Db) (add : List String) (removeArch : Option Arch) : List PackageId :=
  let wanted := add.map Wanted.ofEntry
  let found := db.addRows (wanted.map (·.sha)) removeArch
  (wanted.flatMap fun w => (w.rowsOf found).map (·.id)).eraseDups

theorem mem_addedIds {db : Db} {add : List String} {removeArch : Option Arch} {id : PackageId}
    (member : id ∈ db.addedIds add removeArch) : ∃ p ∈ db.packages, p.id = id := by
  simp only [Db.addedIds, List.mem_eraseDups, List.mem_flatMap, List.mem_map, Wanted.rowsOf,
    Db.addRows, List.mem_filter] at member
  obtain ⟨w, -, p, ⟨⟨inTable, -⟩, -⟩, same⟩ := member
  exact ⟨p, inTable, same⟩

/-- One architecture of a base, the other the ring's, when the request asks for one. -/
def scopeTo (onlyArch : Option Arch) (parent : Option Release) (ring : Ring) (base : Members) :
    Members :=
  match onlyArch, parent with
  | some arch, some _ => .oneArch base arch ring
  | _, _ => base

/-- Where a request's selection starts, and what it saw of it. -/
inductive BaseRead (ensured : ReleaseId → World → Prop) (ring : Ring) (w : World)
    (onlyArch : Option Arch) : Option Release → Option Release → Members → Prop where
  | nothing : BaseRead ensured ring w onlyArch none none .none
  | own (parent : Release) : BaseRead ensured ring w onlyArch none (some parent) (.ring ring)
  | same {source parent : Release} : parent.id = source.id →
      BaseRead ensured ring w onlyArch (some source) (some parent) (.ring ring)
  | live {source : Release} {parent : Option Release} {asHead : Ring} :
      (∀ p, parent = some p → p.id ≠ source.id) → w.db.headRing? source.id = some asHead →
      BaseRead ensured ring w onlyArch (some source) parent
        (scopeTo onlyArch parent ring (.ring asHead))
  | rows {source : Release} {parent : Option Release} :
      (∀ p, parent = some p → p.id ≠ source.id) → ensured source.id w →
      BaseRead ensured ring w onlyArch (some source) parent
        (scopeTo onlyArch parent ring (.release source.id))

/-- What a request read before its batch, and the worlds it read it in. -/
structure Reads where
  ring : Ring
  source : Option Release
  parent : Option Release
  removeArch : Option Arch
  onlyArch : Option Arch
  added : List PackageId
  base : Members
  last : Nat
  atSource : World
  atParent : World
  atAdds : World
  atSeq : World
  atBase : World
  atLast : World

/-- The batch the request is bound with. -/
def Reads.batch (reads : Reads) (body : CreateRelease) : CreateBatch where
  ring := reads.ring
  seq := reads.atSeq.db.maxSeq reads.ring + 1
  parent := reads.parent.map (·.id)
  source := reads.source.map (·.id)
  note := body.note
  base := reads.base
  remove := body.remove
  removeFrom := body.removeFrom
  removeArch := reads.removeArch
  added := reads.added
  checkpoint := reads.parent.isNone ||
    reads.atSeq.db.maxSeq reads.ring + 1 - reads.last ≥ checkpointEvery
  unchanged := unchangedArches body reads.source reads.parent reads.removeArch reads.onlyArch
    reads.added

/-- The reads of a request whose batch is about to run in `now`. -/
structure Reads.Hold (c : Contract World Event) (flow : World → World → Prop)
    (ensured : ReleaseId → World → Prop) (body : CreateRelease) (reads : Reads) (now : World) :
    Prop where
  ring : isRing body.ring = some reads.ring
  source : SourceRead body reads.ring reads.atSource.db reads.source
  parent : reads.atParent.db.ringHead reads.ring = reads.parent
  removeArch : ∀ text, body.removeArch = some text → reads.removeArch = isRepoArch text
  noRemoveArch : body.removeArch = none → reads.removeArch = none
  added : reads.added = reads.atAdds.db.addedIds body.add reads.removeArch
  seqMet : c.meets (.nextSeq reads.ring (reads.parent.map (·.id))) reads.atSeq
  onlyArch : ∀ text, body.arch = some text → reads.onlyArch = isRepoArch text
  noOnlyArch : body.arch = none → reads.onlyArch = none
  sourced : reads.onlyArch.isSome → reads.source.isSome
  base : BaseRead ensured reads.ring reads.atBase reads.onlyArch reads.source reads.parent reads.base
  last : reads.last = reads.atLast.db.lastCheckpoint reads.ring
  toParent : flow reads.atSource reads.atParent
  toAdds : flow reads.atParent reads.atAdds
  toSeq : flow reads.atAdds reads.atSeq
  toBase : flow reads.atSeq reads.atBase
  toLast : flow reads.atBase reads.atLast
  toNow : flow reads.atLast now
  invSource : c.inv reads.atSource
  invParent : c.inv reads.atParent
  invAdds : c.inv reads.atAdds
  invSeq : c.inv reads.atSeq
  invBase : c.inv reads.atBase
  invLast : c.inv reads.atLast

/-- What is computed once from a release's rows and kept on it. -/
inductive Stores (rows : List Package) : (Release → Release) → Prop where
  | summary : Stores rows fun r =>
      { r with packageCount := some (summarize rows).packageCount
               bytes := some (summarize rows).sizeDownload }
  | sources : Stores rows fun r => { r with sources := some (slicesOf rows) }

theorem Stores.keeps {rows : List Package} {change : Release → Release} (stores : Stores rows change)
    (r : Release) : (change r).fixed = r.fixed ∧ (change r).checkpoint = r.checkpoint := by
  cases stores <;> exact ⟨rfl, rfl⟩

/-- What a contract provides for the parts of the handler other than its batch: `flow` holds
between the worlds it reads in, `later` between any two worlds of the request, `ensured` is
what `ensureCheckpoint` leaves, and `lists` what is known of the members of a release. -/
structure Serves (c : Contract World Event) (flow later : World → World → Prop)
    (ensured : ReleaseId → World → Prop) (lists : ReleaseId → Members → World → Prop) : Prop where
  refl : ∀ w, flow w w
  trans : ∀ a b d, flow a b → flow b d → flow a d
  relied : ∀ a b, c.rely a b → flow a b
  still : ∀ w, c.guar w w
  laterRefl : ∀ w, later w w
  laterTrans : ∀ a b d, later a b → later b d → later a d
  laterRelied : ∀ a b, c.rely a b → later a b
  ensure : ∀ id w, c.inv w → (ensureCheckpoint id).Spec c w fun result w' =>
    flow w w' ∧ later w w' ∧ c.inv w' ∧ (result = .ok () → ensured id w')
  headLists : ∀ id ring w, c.inv w → w.db.headRing? id = some ring → lists id (.ring ring) w
  rowsList : ∀ id w, c.inv w → ensured id w → lists id (.release id) w
  listsKept : ∀ id members a b, c.rely a b → lists id members a → lists id members b
  counts : ∀ id members a b change, c.inv a → lists id members a → c.rely a b → c.inv b →
    Stores (a.db.joined (members.rows a.db)) change →
    c.inv (b.commit (b.db.updateRelease id change)) ∧
      c.guar b (b.commit (b.db.updateRelease id change)) ∧
      later b (b.commit (b.db.updateRelease id change))

/-! ## The walk through the handler -/

section Walk

variable {c : Contract World Event} {flow later : World → World → Prop}
  {ensured : ReleaseId → World → Prop} {lists : ReleaseId → Members → World → Prop}
  (serves : Serves c flow later ensured lists)
include serves

theorem Serves.query {α : Type} {event : Event} {read : Db → α} {w : World}
    {post : Except Failure α → World → Prop}
    (after : ∀ w', flow w w' → later w w' → c.inv w' → c.meets event w' →
      post (.ok (read w'.db)) w') :
    (D1.query event read).Spec c w post :=
  Program.spec_query serves.still fun w' relied inv meets =>
    after w' (serves.relied _ _ relied) (serves.laterRelied _ _ relied) inv meets

theorem resolveSource_spec (ring : Ring) (body : CreateRelease) {w : World} (inv : c.inv w) :
    (resolveSource ring body).Spec c w fun result w' =>
      flow w w' ∧ c.inv w' ∧ ∀ source, result = .ok source → SourceRead body ring w'.db source := by
  unfold resolveSource
  cases named : body.fromReleaseId with
  | some releaseId =>
      refine Program.Spec.bind (serves.query fun w' moved _ inv' _ => ?_)
      cases found : w'.db.release? releaseId with
      | none => exact ⟨moved, inv', by simp⟩
      | some source =>
          by_cases lab : source.ring = .lab ∧ ring ≠ .lab
          · simp only [if_pos lab]
            exact ⟨moved, inv', by simp⟩
          · by_cases other : source.ring ≠ ring
            · simp only [if_neg lab, if_pos other]
              exact ⟨moved, inv', by simp⟩
            · simp only [if_neg lab, if_neg other]
              refine ⟨moved, inv', ?_⟩
              rintro _ ⟨⟩
              exact .release named found (not_not.mp other)
  | none =>
      cases fromNamed : body.fromRing with
      | none =>
          refine ⟨serves.refl w, inv, ?_⟩
          rintro _ ⟨⟩
          exact .none named fromNamed
      | some name =>
          dsimp only
          cases parsed : isRing name with
          | none => exact ⟨serves.refl w, inv, by simp⟩
          | some fromRing =>
              by_cases lab : fromRing = .lab ∨ ring = .lab
              · simp only [if_pos lab]
                exact ⟨serves.refl w, inv, by simp⟩
              · simp only [if_neg lab]
                refine Program.Spec.bind (serves.query fun w' moved _ inv' _ => ?_)
                cases found : w'.db.ringHead fromRing with
                | none => exact ⟨moved, inv', by simp⟩
                | some source =>
                    refine ⟨moved, inv', ?_⟩
                    rintro _ ⟨⟩
                    rw [not_or] at lab
                    exact .head named fromNamed parsed lab.1 lab.2 found

omit serves in
theorem readArch_spec (text : Option String) (error : String) (w : World) :
    (readArch text error).Spec c w fun result w' => w = w' ∧ ∀ arch, result = .ok arch →
      (∀ t, text = some t → arch = isRepoArch t) ∧ (text = none → arch = none) := by
  unfold readArch
  split
  · refine ⟨rfl, ?_⟩
    rintro _ ⟨⟩
    simp
  · rename_i t
    cases parsed : isRepoArch t with
    | none => exact ⟨rfl, by simp⟩
    | some arch =>
        refine ⟨rfl, ?_⟩
        rintro _ ⟨⟩
        simp [parsed]

theorem resolveAdds_spec (add : List String) (removeArch : Option Arch) {w : World}
    (inv : c.inv w) :
    (resolveAdds add removeArch).Spec c w fun result w' => flow w w' ∧ c.inv w' ∧
      ∀ added, result = .ok added → added = w'.db.addedIds add removeArch := by
  unfold resolveAdds
  by_cases empty : add.isEmpty
  · simp only [if_pos empty]
    have nil : add = [] := List.isEmpty_iff.mp empty
    subst nil
    refine ⟨serves.refl w, inv, ?_⟩
    rintro _ ⟨⟩
    rfl
  · simp only [if_neg empty]
    refine Program.Spec.bind (serves.query fun w' moved _ inv' _ => ?_)
    dsimp only
    split
    · refine ⟨moved, inv', ?_⟩
      rintro _ ⟨⟩
      rfl
    · exact ⟨moved, inv', by simp⟩

theorem baseSql_spec (ring : Ring) (source parent : Option Release) (onlyArch : Option Arch)
    {w : World} (inv : c.inv w) :
    (baseSql ring source parent onlyArch).Spec c w fun result w' => flow w w' ∧ c.inv w' ∧
      ∀ base, result = .ok base → BaseRead ensured ring w' onlyArch source parent base := by
  unfold baseSql
  cases source with
  | none =>
      refine ⟨serves.refl w, inv, ?_⟩
      rintro _ ⟨⟩
      cases parent with
      | none => exact .nothing
      | some p => exact .own p
  | some source =>
      by_cases same : parent.any (·.id == source.id)
      · simp only [if_pos same]
        refine ⟨serves.refl w, inv, ?_⟩
        rintro _ ⟨⟩
        cases parent with
        | none => simp at same
        | some p => exact .same (by simpa using same)
      · simp only [if_neg same]
        have differs : ∀ p, parent = some p → p.id ≠ source.id := by
          rintro p rfl equal
          exact same (by simpa using equal)
        -- The last match only wraps the base that was read.
        have wrapped : ∀ (base : Members) (w' : World) (post : Except Failure Members → World → Prop),
            post (.ok (scopeTo onlyArch parent ring base)) w' →
            Program.Spec c (match onlyArch, parent with
              | some arch, some _ => (pure (.oneArch base arch ring) : Handler Members)
              | _, _ => pure base) w' post := by
          intro base w' post holds
          cases onlyArch <;> cases parent <;> exact holds
        refine Program.Spec.bind (serves.query fun w' moved _ inv' _ => ?_)
        cases found : w'.db.headRing? source.id with
        | some asHead =>
            refine wrapped _ _ _ ⟨moved, inv', ?_⟩
            rintro _ ⟨⟩
            exact .live differs found
        | none =>
            refine Program.Spec.bind ((serves.ensure source.id w' inv').mono ?_)
            rintro (error | ⟨⟩) w'' ⟨further, _, inv'', made⟩
            · exact ⟨serves.trans _ _ _ moved further, inv'', by simp⟩
            · refine wrapped _ _ _ ⟨serves.trans _ _ _ moved further, inv'', ?_⟩
              rintro _ ⟨⟩
              exact .rows differs (made rfl)

theorem releaseMembers_spec (id : ReleaseId) (w : World) :
    (releaseMembers id).Spec c w fun result w' => later w w' ∧ c.inv w' ∧
      ∀ members, result = .ok members → lists id members w' := by
  unfold releaseMembers
  refine Program.Spec.bind (serves.query fun w' _ moved inv' _ => ?_)
  cases found : w'.db.headRing? id with
  | some ring =>
      refine ⟨moved, inv', ?_⟩
      rintro _ ⟨⟩
      exact serves.headLists id ring w' inv' found
  | none =>
      refine Program.Spec.bind ((serves.ensure id w' inv').mono ?_)
      rintro (error | ⟨⟩) w'' ⟨_, further, inv'', made⟩
      · exact ⟨serves.laterTrans _ _ _ moved further, inv'', by simp⟩
      · refine ⟨serves.laterTrans _ _ _ moved further, inv'', ?_⟩
        rintro _ ⟨⟩
        exact serves.rowsList id w'' inv'' (made rfl)

/-- A number computed once from a release's members and kept on its row. -/
theorem storeOnce_spec {α : Type} (id : ReleaseId) (read : List Package → α)
    (change : α → Release → Release) (stores : ∀ rows, Stores rows (change (read rows))) (w : World) :
    (do
      let members ← releaseMembers id
      let fresh ← D1.query .other fun db => read (db.joined (members.rows db))
      D1.exec .other (·.updateRelease id (change fresh))
      pure fresh : Handler α).Spec c w fun _ w' => later w w' ∧ c.inv w' := by
  refine Program.Spec.bind ((releaseMembers_spec serves id w).mono ?_)
  rintro (error | members) w₁ ⟨moved₁, inv₁, listed⟩
  · exact ⟨moved₁, inv₁⟩
  · refine Program.Spec.bind (Program.spec_query serves.still fun w₂ relied₂ inv₂ _ => ?_)
    have moved₂ := serves.laterRelied _ _ relied₂
    have listed₂ := serves.listsKept _ _ _ _ relied₂ (listed members rfl)
    refine Program.Spec.bind (Program.spec_exec fun w₃ relied inv₃ _ => ?_)
    obtain ⟨kept, guaranteed, stored⟩ := serves.counts id members w₂ w₃ _ inv₂ listed₂ relied inv₃
      (stores _)
    refine ⟨kept, guaranteed, ?_, kept⟩
    exact serves.laterTrans _ _ _ moved₁ (serves.laterTrans _ _ _ moved₂
      (serves.laterTrans _ _ _ (serves.laterRelied _ _ relied) stored))

theorem releaseSummary_spec (id : ReleaseId) (w : World) :
    (releaseSummary id).Spec c w fun _ w' => later w w' ∧ c.inv w' := by
  unfold releaseSummary
  refine Program.Spec.bind (serves.query fun w' _ moved inv' _ => ?_)
  dsimp only
  split
  · exact ⟨moved, inv'⟩
  · refine (storeOnce_spec serves id summarize
      (fun s r => { r with packageCount := some s.packageCount, bytes := some s.sizeDownload })
      (fun _ => .summary) w').mono ?_
    exact fun _ _ ended => ⟨serves.laterTrans _ _ _ moved ended.1, ended.2⟩

theorem releaseSources_spec (id : ReleaseId) (w : World) :
    (releaseSources id).Spec c w fun _ w' => later w w' ∧ c.inv w' := by
  unfold releaseSources
  refine Program.Spec.bind (serves.query fun w' _ moved inv' _ => ?_)
  dsimp only
  split
  · exact ⟨moved, inv'⟩
  · refine (storeOnce_spec serves id slicesOf (fun s r => { r with sources := some s })
      (fun _ => .sources) w').mono ?_
    exact fun _ _ ended => ⟨serves.laterTrans _ _ _ moved ended.1, ended.2⟩

/-- The answer of a request names the release its batch made, as a later world has it. -/
structure Answered (later : World → World → Prop) (b : CreateBatch) (made : World)
    (created : Created) (w' : World) : Prop where
  read : ∃ w₁ w₂, later made w₁ ∧ later w₁ w₂ ∧ later w₂ w' ∧
    ∃ row, (w₁.db.ofRing b.ring).find? (·.seq == b.seq) = some row ∧
      w₂.db.release? row.id = some created.release
  unchanged : created.unchangedArches = b.unchanged

/-- A contract that the batch of every request keeps is kept by the request; and an answer
is that of a batch that was applied. -/
theorem create_spec (body : CreateRelease) {w : World}
    (batch : ∀ (reads : Reads) (now : World), reads.Hold c flow ensured body now → flow w now →
      c.inv now → c.meets (.create (reads.batch body)) now →
      ∀ db', Db.createRelease (reads.batch body) now.db = .ok db' →
        c.inv (now.commit db') ∧ c.guar now (now.commit db'))
    (inv : c.inv w) :
    (handleCreateRelease body).Spec c w fun result w' => c.inv w' ∧
      ∀ created, result = .ok created → ∃ (reads : Reads) (now : World) (db' : Db), reads.Hold c flow ensured body now ∧
        flow w now ∧ c.inv now ∧ c.meets (.create (reads.batch body)) now ∧
        Db.createRelease (reads.batch body) now.db = .ok db' ∧
        Answered later (reads.batch body) (now.commit db') created w' := by
  unfold handleCreateRelease
  cases parsed : isRing body.ring with
  | none => exact ⟨inv, by simp⟩
  | some ring =>
    refine Program.Spec.bind ((resolveSource_spec serves ring body inv).mono ?_)
    rintro (error | source) w₁ ⟨moved₁, inv₁, sourceRead⟩
    · exact ⟨inv₁, by simp⟩
    refine Program.Spec.bind (serves.query fun w₂ moved₂ _ inv₂ _ => ?_)
    refine Program.Spec.bind ((readArch_spec body.removeArch _ w₂).mono ?_)
    rintro (error | removeArch) _ ⟨rfl, archRead⟩
    · exact ⟨inv₂, by simp⟩
    refine Program.Spec.bind ((resolveAdds_spec serves body.add removeArch inv₂).mono ?_)
    rintro (error | added) w₃ ⟨moved₃, inv₃, addsRead⟩
    · exact ⟨inv₃, by simp⟩
    refine Program.Spec.bind (serves.query fun w₄ moved₄ _ inv₄ met₄ => ?_)
    refine Program.Spec.bind ((readArch_spec body.arch _ w₄).mono ?_)
    rintro (error | onlyArch) _ ⟨rfl, onlyRead⟩
    · exact ⟨inv₄, by simp⟩
    by_cases sourced : (onlyArch.isSome && source.isNone) = true
    · simp only [if_pos sourced]
      exact ⟨inv₄, by simp⟩
    simp only [if_neg sourced]
    refine Program.Spec.bind ((baseSql_spec serves ring source _ onlyArch inv₄).mono ?_)
    rintro (error | base) w₅ ⟨moved₅, inv₅, baseRead⟩
    · exact ⟨inv₅, by simp⟩
    refine Program.Spec.bind (serves.query fun w₆ moved₆ _ inv₆ _ => ?_)
    let reads : Reads :=
      { ring, source, removeArch, onlyArch, added, base
        parent := w₂.db.ringHead ring, last := w₆.db.lastCheckpoint ring
        atSource := w₁, atParent := w₂, atAdds := w₃, atSeq := w₄, atBase := w₅, atLast := w₆ }
    have hold : ∀ now, flow w₆ now → reads.Hold c flow ensured body now := fun now moved =>
      { ring := parsed
        source := sourceRead _ rfl
        parent := rfl
        removeArch := (archRead _ rfl).1
        noRemoveArch := (archRead _ rfl).2
        added := addsRead _ rfl
        seqMet := met₄
        onlyArch := (onlyRead _ rfl).1
        noOnlyArch := (onlyRead _ rfl).2
        sourced := fun only => by
          cases source with
          | some source => rfl
          | none => exact absurd (by simpa using only) sourced
        base := baseRead _ rfl
        last := rfl
        toParent := moved₂
        toAdds := moved₃
        toSeq := moved₄
        toBase := moved₅
        toLast := moved₆
        toNow := moved
        invSource := inv₁
        invParent := inv₂
        invAdds := inv₃
        invSeq := inv₄
        invBase := inv₅
        invLast := inv₆ }
    refine Program.Spec.bind (Program.spec_transact serves.still ?_ ?_)
    · intro now e _ invNow _ _
      exact ⟨invNow, by simp⟩
    intro now made relied invNow met done
    change (Db.createRelease (reads.batch body) now.db).map now.commit = .ok made at done
    cases applied : Db.createRelease (reads.batch body) now.db with
    | error e =>
        rw [applied] at done
        cases done
    | ok db' =>
    rw [applied] at done
    cases done
    have holds := hold now (serves.relied _ _ relied)
    have fromStart : flow w now := serves.trans _ _ _ moved₁ (serves.trans _ _ _ moved₂
      (serves.trans _ _ _ moved₃ (serves.trans _ _ _ moved₄ (serves.trans _ _ _ moved₅
        (serves.trans _ _ _ moved₆ (serves.relied _ _ relied))))))
    obtain ⟨kept, guaranteed⟩ := batch reads now holds fromStart invNow met db' applied
    refine ⟨kept, guaranteed, ?_⟩
    -- What is left reads the release back and stores its counts.
    refine Program.Spec.bind (serves.query fun w₇ _ moved₇ inv₇ _ => ?_)
    cases found : (w₇.db.ofRing ring).find? (·.seq == w₄.db.maxSeq ring + 1) with
    | none => exact ⟨inv₇, by simp⟩
    | some row =>
    refine Program.Spec.bind ((releaseSummary_spec serves row.id w₇).mono ?_)
    rintro (error | summary) w₈ ⟨moved₈, inv₈⟩
    · exact ⟨inv₈, by simp⟩
    refine Program.Spec.bind ((releaseSources_spec serves row.id w₈).mono ?_)
    rintro (error | sources) w₉ ⟨moved₉, inv₉⟩
    · exact ⟨inv₉, by simp⟩
    refine Program.Spec.bind (serves.query fun w' _ moved' inv' _ => ?_)
    cases read : w'.db.release? row.id with
    | none => exact ⟨inv', by simp⟩
    | some release =>
    refine ⟨inv', ?_⟩
    rintro _ ⟨⟩
    refine ⟨reads, now, db', holds, fromStart, invNow, met, applied, ⟨w₇, w', moved₇, ?_, ?_, row, found, read⟩, rfl⟩
    · exact serves.laterTrans _ _ _ moved₈ (serves.laterTrans _ _ _ moved₉ moved')
    · exact serves.laterRefl _

end Walk

end OmarchyPool
