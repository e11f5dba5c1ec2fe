/-
# OmarchyPool.Gate.Warned -- what a warn row does to the verdict

The gate counts a `warn` health row as a check that did not fail, and as the newest row it stands for the check below
it: so once an architecture is checked, some `warn` row changes the verdict on any events (`warn_changes`).  The
argument counts reasons: the row moves how many its architecture gives, and verdicts that are the same have as many.
-/
import OmarchyPool.Gate.Evidence
import Mathlib.Algebra.Order.BigOperators.Group.List

namespace OmarchyPool.Gate

open OmarchyPool.Lib
open OmarchyPool.Manifest (Bytes ascii)
open OmarchyPool.Clock (parseIso8601)

set_option autoImplicit false

/-! ## What a `warn` row does -/

/-- The latest second the text of a time says. -/
def lastSecond : Int := 253402300800

def lastText : Bytes := ascii "9999-12-31T23:59:60Z"

theorem parseIso8601_last : parseIso8601 lastText = some lastSecond := by decide
theorem parseIso8601_blank : parseIso8601 [] = none := rfl

/-- A `warn` health row of the ring, posted at a time of one's own. -/
def warnRow (ring arch : String) (id : Nat) (createdAt : Bytes) : Event :=
  ⟨id, "health", some ring, some arch, .warn, "posted by hand", createdAt⟩

section Warned

variable {events : List Event} {now : Int} {fromHeadAt : Option Int} {opts : GateOptions} {arch : String} {id : Nat}
  {createdAt : Bytes}

/-- Newer than every row, it stands first among its architecture's. -/
theorem ofArch_warn (newer : ∀ e ∈ events, e.id < id) :
    ofArch (warnRow opts.fromRing arch id createdAt :: events) opts.fromRing arch =
      warnRow opts.fromRing arch id createdAt :: ofArch events opts.fromRing arch := by
  have isOf : (warnRow opts.fromRing arch id createdAt).isOf "health" opts.fromRing arch = true := by
    simp [warnRow, Event.isOf]
  unfold ofArch sortBy
  rw [List.filter_cons_of_pos isOf, List.insertionSort_cons]
  have above : ∀ e ∈ (events.filter (Event.isOf "health" opts.fromRing arch)).insertionSort
      (fun x y => (compare y.id x.id).isLE), e.id < id := by
    intro e member
    exact newer e (List.mem_filter.mp ((List.perm_insertionSort _ _).mem_iff.mp member)).1
  generalize (events.filter (Event.isOf "health" opts.fromRing arch)).insertionSort
    (fun x y => (compare y.id x.id).isLE) = rows at above
  cases rows with
  | nil => rfl
  | cons e rest =>
      have first : (compare e.id (warnRow opts.fromRing arch id createdAt).id).isLE = true :=
        newestFirst_le.mpr (Nat.le_of_lt (above e List.mem_cons_self))
      exact if_pos first

/-- It is no ABI check. -/
theorem latestAbi_warn (other : String) (maxAge : Int) :
    latestAbi (warnRow opts.fromRing arch id createdAt :: events) opts.fromRing other now maxAge =
      latestAbi events opts.fromRing other now maxAge := by
  unfold latestAbi
  rw [List.filter_cons_of_neg (by simp [warnRow, Event.isOf])]

theorem archReasons_warn_other {other : String} (apart : other ≠ arch) :
    archReasons (warnRow opts.fromRing arch id createdAt :: events) now fromHeadAt opts other =
      archReasons events now fromHeadAt opts other := by
  have rows : ofArch (warnRow opts.fromRing arch id createdAt :: events) opts.fromRing other =
      ofArch events opts.fromRing other := by
    unfold ofArch
    rw [List.filter_cons_of_neg (by simp [warnRow, Event.isOf, Ne.symm apart])]
  unfold archReasons
  rw [rows, latestAbi_warn]

variable (now fromHeadAt opts arch createdAt)

/-- How many reasons an architecture gives. -/
theorem length_archReasons (events : List Event) :
    (archReasons events now fromHeadAt opts arch).length =
      (latestReasons now opts arch (ofArch events opts.fromRing arch).head?).length +
      (if flapping ≤ errorsOf now (ofArch events opts.fromRing arch) then 1 else 0) +
      (if greensSince (ofArch events opts.fromRing arch) fromHeadAt < opts.soakChecks then 1 else 0) +
      (if (latestAbi events opts.fromRing arch now opts.maxAge).any (·.status = .error) then 1 else 0) := by
  unfold archReasons
  simp only [List.length_append]
  congr 1
  · congr 1
    · congr 1
      split <;> rfl
    · split <;> rfl
  · cases latestAbi events opts.fromRing arch now opts.maxAge with
    | none => rfl
    | some e =>
        by_cases failed : e.status = .error
        · have kept : (some e).filter (·.status = .error) = some e := by simp [failed]
          simp [kept, failed]
        · have dropped : (some e).filter (·.status = .error) = none := by simp [failed]
          simp [dropped, failed]

/-- A newest row that is a `warn` leaves the failures and the ABI check, and decides the rest itself. -/
theorem length_archReasons_warn (newer : ∀ e ∈ events, e.id < id) :
    let row := warnRow opts.fromRing arch id createdAt
    (archReasons (row :: events) now fromHeadAt opts arch).length =
      (latestReasons now opts arch (some row)).length +
      (if flapping ≤ errorsOf now (ofArch events opts.fromRing arch) then 1 else 0) +
      (if (if afterHead fromHeadAt row then greensSince (ofArch events opts.fromRing arch) fromHeadAt + 1 else 0) <
        opts.soakChecks then 1 else 0) +
      (if (latestAbi events opts.fromRing arch now opts.maxAge).any (·.status = .error) then 1 else 0) := by
  intro row
  have errors : errorsOf now (row :: ofArch events opts.fromRing arch) = errorsOf now (ofArch events opts.fromRing arch) := by
    unfold errorsOf inWindow
    rw [List.filter_cons]
    split
    · rw [List.countP_cons_of_neg (by simp [row, warnRow])]
    · rfl
  have greens : greensSince (row :: ofArch events opts.fromRing arch) fromHeadAt =
      if afterHead fromHeadAt row then greensSince (ofArch events opts.fromRing arch) fromHeadAt + 1 else 0 := by
    have unfailed : (row.status != .error) = true := rfl
    unfold greensSince
    rw [List.takeWhile_cons, unfailed, Bool.and_true]
    split <;> rfl
  rw [length_archReasons, ofArch_warn newer, errors, greens, latestAbi_warn]
  rfl

variable {now fromHeadAt opts arch}

/-- **Some `warn` row changes how many reasons an architecture gives**: a recent one where the newest check is against
the promotion or one green check is missing, and else one whose time says nothing. -/
theorem warn_moves (newer : ∀ e ∈ events, e.id < id) (nowDated : now ≤ lastSecond)
    (headDated : ∀ head ∈ fromHeadAt, head < lastSecond) :
    ∃ createdAt, (archReasons (warnRow opts.fromRing arch id createdAt :: events) now fromHeadAt opts arch).length ≠
      (archReasons events now fromHeadAt opts arch).length := by
  have maxAge_nonneg : 0 ≤ opts.maxAge := by
    unfold GateOptions.maxAge
    omega
  have recent : latestReasons now opts arch (some (warnRow opts.fromRing arch id lastText)) = [] := by
    refine latestReasons_nil.mpr ⟨_, rfl, nofun, now - lastSecond, ?_, by omega⟩
    simp [warnRow, Event.age, parseIso8601_last]
  have after : afterHead fromHeadAt (warnRow opts.fromRing arch id lastText) = true := by
    cases fromHeadAt with
    | none => rfl
    | some head => simpa [afterHead, warnRow, parseIso8601_last] using headDated head rfl
  have old : (latestReasons now opts arch (some (warnRow opts.fromRing arch id []))).length = 1 := by
    simp [latestReasons, warnRow, Event.age, parseIso8601_blank]
  have plain := length_archReasons now fromHeadAt opts arch events
  have recently := length_archReasons_warn now fromHeadAt opts arch lastText newer
  have timeless := length_archReasons_warn now fromHeadAt opts arch [] newer
  dsimp only at recently timeless
  rw [recent, after, if_pos rfl, List.length_nil] at recently
  rw [old] at timeless
  generalize greensSince (ofArch events opts.fromRing arch) fromHeadAt = greens at plain recently timeless
  by_cases quiet : latestReasons now opts arch (ofArch events opts.fromRing arch).head? = []
  · rw [quiet, List.length_nil] at plain
    by_cases missing : greens + 1 = opts.soakChecks
    · refine ⟨lastText, ?_⟩
      rw [if_pos (show greens < opts.soakChecks by omega)] at plain
      rw [if_neg (show ¬greens + 1 < opts.soakChecks by omega)] at recently
      omega
    · refine ⟨[], ?_⟩
      -- the run of green checks goes on or is broken; its reason does not go away
      have soak : (if greens < opts.soakChecks then 1 else 0) ≤
          if (if afterHead fromHeadAt (warnRow opts.fromRing arch id []) = true then greens + 1 else 0) <
            opts.soakChecks then 1 else 0 := by
        split_ifs <;> omega
      omega
  · refine ⟨lastText, ?_⟩
    have against := List.length_pos_iff.mpr quiet
    have soak : (if greens + 1 < opts.soakChecks then 1 else 0) ≤ if greens < opts.soakChecks then 1 else 0 := by
      split_ifs <;> omega
    omega

end Warned

/-! ## What the verdict shows of the reasons -/

section Verdicts

variable {one two : List Event} {now : Int} {fromHeadAt : Option Int} {security : List (List String)}
  {opts : GateOptions} {arch : String} {fromHead toSource : Option Nat}

/-- Two lists of rows that differ in one architecture's reasons only. -/
theorem length_reasonsOf_lt (isArch : arch ∈ opts.arches)
    (others : ∀ other, other ≠ arch → archReasons one now fromHeadAt opts other = archReasons two now fromHeadAt opts other)
    (fewer : (archReasons one now fromHeadAt opts arch).length < (archReasons two now fromHeadAt opts arch).length) :
    (reasonsOf one now fromHeadAt opts security).length < (reasonsOf two now fromHeadAt opts security).length := by
  obtain ⟨i, isAt⟩ := List.getElem?_of_mem isArch
  unfold reasonsOf
  rw [List.length_flatMap, List.length_flatMap]
  refine List.sum_lt_sum _ _ ?_ ⟨(arch, i), List.mem_zipIdx_iff_getElem?.mpr isAt, ?_⟩
  · rintro ⟨other, j⟩ -
    simp only [List.length_append, Nat.add_le_add_iff_left]
    by_cases same : other = arch
    · subst same
      exact Nat.le_of_lt fewer
    · rw [others other same]
  · simp only [List.length_append, Nat.add_lt_add_iff_left]
    exact fewer

/-- A reason names the ring among more words than the one of a ring without a release. -/
theorem noRelease_lt {reason : String} (member : reason ∈ archReasons one now fromHeadAt opts arch) :
    (noRelease opts).length < reason.length := by
  have words : (noRelease opts).length = opts.fromRing.length + 15 := by
    rw [noRelease, String.length_append]
    rfl
  rw [words]
  unfold archReasons at member
  dsimp only at member
  simp only [List.mem_append] at member
  rcases member with ((latest | failures) | soak) | abi
  · unfold latestReasons at latest
    split at latest
    · rw [List.mem_singleton.mp latest]
      simp only [String.length_append]
      have : ": no health check of ".length = 21 := rfl
      omega
    · split at latest
      · rw [List.mem_singleton.mp latest]
        simp only [String.length_append]
        have : ": latest health of ".length = 19 := rfl
        omega
      · split at latest
        · rw [List.mem_singleton.mp latest]
          simp only [String.length_append]
          have : ": latest health of ".length = 19 := rfl
          omega
        · cases latest
  · split at failures
    · rw [List.mem_singleton.mp failures]
      simp only [String.length_append]
      have : " failed health check(s) of ".length = 27 := rfl
      omega
    · cases failures
  · split at soak
    · rw [List.mem_singleton.mp soak]
      simp only [String.length_append]
      have : " green health check(s) of ".length = 26 := rfl
      omega
    · cases soak
  · split at abi
    · rw [List.mem_singleton.mp abi]
      simp only [String.length_append]
      have : ": ABI check of ".length = 15 := rfl
      have : " failed — ".length = 10 := rfl
      omega
    · cases abi

/-- A ring without a release is no architecture's reason. -/
theorem noRelease_not_mem (two : List Event) (safe : reasonsOf one now fromHeadAt opts security = []) :
    noRelease opts ∉ reasonsOf two now fromHeadAt opts security := by
  intro member
  obtain ⟨⟨arch, i⟩, isArch, isReason⟩ := List.mem_flatMap.mp member
  have none_ := List.append_eq_nil_iff.mp (List.flatMap_eq_nil_iff.mp safe (arch, i) isArch)
  dsimp only at isReason none_
  rw [none_.1, List.nil_append] at isReason
  exact Nat.lt_irrefl _ (noRelease_lt isReason)

theorem verdictOf_nil_ne {reasons : List String} (some_ : reasons ≠ []) (other : noRelease opts ∉ reasons) :
    verdictOf opts fromHead toSource [] ≠ verdictOf opts fromHead toSource reasons := by
  intro same
  unfold verdictOf at same
  rw [if_pos some_, if_neg (by simp)] at same
  split at same
  · split at same <;> cases same
  · cases same
    simp at other
  · cases same

/-- Verdicts that are the same have as many reasons. -/
theorem verdict_ne_of_length
    (lengths : (reasonsOf one now fromHeadAt opts security).length ≠ (reasonsOf two now fromHeadAt opts security).length) :
    (evaluate one now fromHeadAt opts fromHead toSource security).verdict ≠
      (evaluate two now fromHeadAt opts fromHead toSource security).verdict := by
  unfold evaluate
  dsimp only
  by_cases none1 : reasonsOf one now fromHeadAt opts security = []
  · have some2 : reasonsOf two now fromHeadAt opts security ≠ [] := by
      intro none2
      rw [none1, none2] at lengths
      exact lengths rfl
    have other := noRelease_not_mem two none1
    rw [none1]
    exact verdictOf_nil_ne some2 other
  · by_cases none2 : reasonsOf two now fromHeadAt opts security = []
    · have other := noRelease_not_mem one none2
      rw [none2]
      exact (verdictOf_nil_ne none1 other).symm
    · unfold verdictOf
      rw [if_pos none1, if_pos none2]
      intro same
      exact lengths (congrArg List.length (Verdict.block.inj same))

end Verdicts

/-! ## What the gate keeps, and what it does not -/

theorem exists_newer (events : List Event) : ∃ id, ∀ e ∈ events, e.id < id := by
  induction events with
  | nil => exact ⟨0, nofun⟩
  | cons e rest ih =>
      obtain ⟨id, newer⟩ := ih
      refine ⟨max id (e.id + 1), fun f member => ?_⟩
      rcases List.mem_cons.mp member with rfl | among
      · omega
      · have := newer f among
        omega

/-- Once an architecture is checked, some `warn` row changes the verdict. -/
theorem warn_changes (events : Events) {now : Int} {fromHeadAt : Option Int} {security : List (List String)}
    {opts : GateOptions} {fromHead toSource : Option Nat} (checked : opts.arches ≠ []) (nowDated : now ≤ lastSecond)
    (headDated : ∀ head ∈ fromHeadAt, head < lastSecond) :
    ∃ changed : Events, Neutral opts events.rows changed.rows ∧
      (evaluate changed.rows now fromHeadAt opts fromHead toSource security).verdict ≠
        (evaluate events.rows now fromHeadAt opts fromHead toSource security).verdict := by
  obtain ⟨arch, isArch⟩ := List.exists_mem_of_ne_nil _ checked
  obtain ⟨id, newer⟩ := exists_newer events.rows
  obtain ⟨createdAt, lengths⟩ := @warn_moves _ _ _ opts arch _ newer nowDated headDated
  have isNew : id ∉ events.rows.map (·.id) := by
    intro member
    obtain ⟨e, isRow, same⟩ := List.mem_map.mp member
    exact absurd (newer e isRow) (by omega)
  refine ⟨⟨warnRow opts.fromRing arch id createdAt :: events.rows, List.nodup_cons.mpr ⟨isNew, events.distinct⟩⟩, ?_, ?_⟩
  · have isWarn : (warnRow opts.fromRing arch id createdAt).isWarn = true := rfl
    unfold Neutral
    rw [List.filter_cons_of_neg (by simp [isWarn])]
  · apply verdict_ne_of_length
    rcases Nat.lt_or_gt_of_ne lengths with fewer | more
    · exact Nat.ne_of_lt (length_reasonsOf_lt isArch (fun other apart => archReasons_warn_other apart) fewer)
    · exact Nat.ne_of_gt (length_reasonsOf_lt isArch (fun other apart => (archReasons_warn_other apart).symm) more)

/-- What is asked of the gate on given events: a promotion comes with its evidence, and neither the order of the rows,
nor rows of other rings, architectures and kinds, nor `warn` health rows change the verdict. -/
def PromotesOnEvidence (events : Events) (now : Int) (fromHead toSource : Option Nat) (fromHeadAt : Option Int)
    (security : List (List String)) (opts : GateOptions) : Prop :=
  ((evaluate events.rows now fromHeadAt opts fromHead toSource security).verdict = .promote →
    Evidence events.rows now fromHeadAt security opts Status.green) ∧
  ∀ changed : Events, Neutral opts events.rows changed.rows →
    (evaluate changed.rows now fromHeadAt opts fromHead toSource security).verdict =
      (evaluate events.rows now fromHeadAt opts fromHead toSource security).verdict

/-- **The gate meets this where it checks no architecture**: with one, some `warn` row changes its verdict.  Where no
row is exactly as old as is allowed it promotes on enough checks that did not fail, green ones where the ring has no
`warn` row; and the order of the rows and what other rings, architectures and kinds have change nothing. -/
theorem promotes_on_evidence_iff (events : Events) (now : Int) (fromHead toSource : Option Nat)
    (fromHeadAt : Option Int) (security : List (List String)) (opts : GateOptions) :
    (now ≤ lastSecond → (∀ head ∈ fromHeadAt, head < lastSecond) →
      (PromotesOnEvidence events now fromHead toSource fromHeadAt security opts ↔ opts.arches = [])) ∧
    ((∀ arch ∈ opts.arches, ∀ e ∈ healthOf events.rows opts arch, e.age now ≠ some opts.maxAge) →
      (evaluate events.rows now fromHeadAt opts fromHead toSource security).verdict = .promote →
      Evidence events.rows now fromHeadAt security opts Status.unfailed ∧
      ((∀ arch ∈ opts.arches, ∀ e ∈ healthOf events.rows opts arch, e.status ≠ .warn) →
        Evidence events.rows now fromHeadAt security opts Status.green)) ∧
    ∀ changed : Events, SameRead opts events.rows changed.rows →
      (evaluate changed.rows now fromHeadAt opts fromHead toSource security).verdict =
        (evaluate events.rows now fromHeadAt opts fromHead toSource security).verdict := by
  refine ⟨fun nowDated headDated => ⟨fun meets => ?_, fun unchecked => ⟨fun _ => ?_, fun changed _ => ?_⟩⟩, ?_, ?_⟩
  · by_contra checked
    obtain ⟨changed, neutral, differs⟩ := warn_changes events checked nowDated headDated
    exact differs (meets.2 changed neutral)
  · intro i arch isArch
    rw [unchecked] at isArch
    cases isArch
  · unfold evaluate reasonsOf
    rw [unchecked]
    rfl
  · intro apart promotes
    refine ⟨evidence_of_promote events.distinct (fun _ _ _ _ unfailed => unfailed) apart promotes, fun noWarn => ?_⟩
    refine evidence_of_promote events.distinct (fun arch isArch e member unfailed => ?_) apart promotes
    have notWarn := noWarn arch isArch e member
    cases status : e.status with
    | ok => rfl
    | warn => exact absurd status notWarn
    | error => simp [status, Status.unfailed] at unfailed
  · intro changed same
    unfold evaluate
    dsimp only
    rw [same.reasonsOf events.distinct]

def twoArches : GateOptions := ⟨"rc", "stable", ["x86_64", "aarch64"], 1, 24⟩

/-- A green check of each architecture. -/
def greenRows : Events where
  rows := [⟨1, "health", some "rc", some "x86_64", .ok, "ok", ascii "2026-09-12T06:00:00Z"⟩,
    ⟨2, "health", some "rc", some "aarch64", .ok, "ok", ascii "2026-09-12T06:01:00Z"⟩]
  distinct := by decide

/-- The second architecture with a `warn` row for all it has. -/
def warnedRows : Events where
  rows := [⟨1, "health", some "rc", some "x86_64", .ok, "ok", ascii "2026-09-12T06:00:00Z"⟩,
    ⟨2, "health", some "rc", some "aarch64", .warn, "nothing rendered", ascii "2026-09-12T06:01:00Z"⟩]
  distinct := by decide

/-- Two green checks promote, on evidence. -/
theorem promotes_on_evidence_green :
    (evaluate greenRows.rows 1789197600 none twoArches (some 10) (some 7) []).verdict = .promote ∧
      Evidence greenRows.rows 1789197600 none [] twoArches Status.green := by
  have promotes : (evaluate greenRows.rows 1789197600 none twoArches (some 10) (some 7) []).verdict = .promote := by
    decide
  have stands := (promotes_on_evidence_iff greenRows 1789197600 (some 10) (some 7) none [] twoArches).2.1
    (by decide) promotes
  exact ⟨promotes, stands.2 (by decide)⟩

/-- A soak of one check is met by a `warn` row: the gate promotes an architecture without a green check, and without
the row it does not. -/
theorem promotes_on_warn : ¬PromotesOnEvidence warnedRows 1789197600 (some 10) (some 7) none [] twoArches := by
  intro meets
  have promotes : (evaluate warnedRows.rows 1789197600 none twoArches (some 10) (some 7) []).verdict = .promote := by
    decide
  have soaked := (meets.1 promotes 1 "aarch64" rfl).soaked
  revert soaked
  decide

end OmarchyPool.Gate
