/-
# OmarchyPool.Gate.Evidence -- what a promotion rests on

`Evidence` is what the gate is for: for each architecture enough checks of the ring's current content that count,
the newest one recent, no flapping, no ABI blockers, no regression.  `evaluate` promotes only on it, where what counts
is a check that did not fail (`evidence_of_promote`): a green one, as long as the ring has no `warn` row.  It reads
nothing of the rows but the ones of its ring, its architectures and its two kinds, in any order (`SameRead.reasonsOf`).
-/
import OmarchyPool.Gate.Evaluate
import Mathlib.Data.List.Induction
import Mathlib.Data.List.TakeWhile

namespace OmarchyPool.Gate

open OmarchyPool.Lib

set_option autoImplicit false

/-! ## What the verdict is for -/

/-- Events as the table gives them: its key tells them apart. -/
structure Events where
  rows : List Event
  distinct : (rows.map (·.id)).Nodup

/-- A row the gate reads: a check of the ring on an architecture it asks about. -/
def Reads (opts : GateOptions) (e : Event) : Prop :=
  ∃ arch ∈ opts.arches, e.isOf "health" opts.fromRing arch = true ∨ e.isOf "abi" opts.fromRing arch = true

instance (opts : GateOptions) (e : Event) : Decidable (Reads opts e) :=
  inferInstanceAs (Decidable (∃ arch ∈ opts.arches, _))

/-- A health row that is neither green nor a failure. -/
def Event.isWarn (e : Event) : Bool := e.kind = "health" && e.status = .warn

/-- The same rows up to their order, rows of other rings, architectures and kinds, and `warn` health rows. -/
def Neutral (opts : GateOptions) (one two : List Event) : Prop :=
  (one.filter fun e => Reads opts e && !e.isWarn).Perm (two.filter fun e => Reads opts e && !e.isWarn)

/-- The same rows up to their order and rows of other rings, architectures and kinds. -/
def SameRead (opts : GateOptions) (one two : List Event) : Prop :=
  (one.filter fun e => Reads opts e).Perm (two.filter fun e => Reads opts e)

section Evidence

variable (events : List Event) (now : Int) (fromHeadAt : Option Int) (security : List (List String))
  (opts : GateOptions) (counts : Status → Bool)

def healthOf (arch : String) : List Event := events.filter (Event.isOf "health" opts.fromRing arch)

/-- A check that counts, of what the ring serves now, above every failure. -/
def Counted (arch : String) (e : Event) : Prop :=
  counts e.status = true ∧ afterHead fromHeadAt e = true ∧ ∀ f ∈ healthOf events opts arch, f.status = .error → f.id < e.id

instance (arch : String) (e : Event) : Decidable (Counted events fromHeadAt opts counts arch e) :=
  inferInstanceAs (Decidable (_ ∧ _ ∧ _))

/-- What a promotion rests on, for one architecture. -/
structure ArchEvident (i : Nat) (arch : String) : Prop where
  soaked : opts.soakChecks ≤ (healthOf events opts arch).countP (Counted events fromHeadAt opts counts arch)
  recent : ∃ newest ∈ healthOf events opts arch, (∀ e ∈ healthOf events opts arch, e.id ≤ newest.id) ∧
    ∃ age ∈ newest.age now, age < opts.maxAge
  steady : (healthOf events opts arch).countP (fun e => e.status = .error ∧ ∃ age ∈ e.age now, age ≤ window) < 3
  linked : ∀ e ∈ events, e.isOf "abi" opts.fromRing arch = true → (∃ age ∈ e.age now, age ≤ opts.maxAge) →
    (∀ f ∈ events, f.isOf "abi" opts.fromRing arch = true → (∃ age ∈ f.age now, age ≤ opts.maxAge) → f.id ≤ e.id) →
    e.status ≠ .error
  safe : regressionsAt security i = []

def Evidence : Prop :=
  ∀ i arch, opts.arches[i]? = some arch → ArchEvident events now fromHeadAt security opts counts i arch

/-- A green check. -/
def Status.green (status : Status) : Bool := status == .ok

/-- A check that did not fail. -/
def Status.unfailed (status : Status) : Bool := status != .error

end Evidence

/-! ## The rows in order -/

instance newestFirst_trans : Std.TransCmp fun x y : Event => compare y.id x.id :=
  transCmp_on (fun a b : Nat => compare b a) Event.id

theorem newestFirst_le {x y : Event} : (compare y.id x.id).isLE = true ↔ y.id ≤ x.id := by
  rw [Nat.isLE_compare]

/-- The fold keeps a row none of those it saw is newer than. -/
theorem foldl_newest (rows : List Event) :
    let best := rows.foldl (fun best e => if best.all fun b => b.id ≤ e.id then some e else best) none
    (best = none → rows = []) ∧ ∀ e, best = some e → e ∈ rows ∧ ∀ f ∈ rows, f.id ≤ e.id := by
  induction rows using List.reverseRecOn with
  | nil => simp
  | append_singleton rows last ih =>
      obtain ⟨empty, greatest⟩ := ih
      simp only [List.foldl_append, List.foldl_cons, List.foldl_nil]
      cases seen : rows.foldl (fun best e => if best.all fun b => b.id ≤ e.id then some e else best) none with
      | none => simp [empty seen]
      | some b =>
          obtain ⟨member, below⟩ := greatest b seen
          rw [Option.all_some]
          split
          · rename_i newer
            have newer : b.id ≤ last.id := of_decide_eq_true newer
            refine ⟨nofun, fun e isLast => ?_⟩
            cases isLast
            refine ⟨List.mem_append_right _ (List.mem_singleton.mpr rfl), fun f among => ?_⟩
            rcases List.mem_append.mp among with earlier | isLast
            · exact Nat.le_trans (below f earlier) newer
            · rw [List.mem_singleton.mp isLast]
          · rename_i older
            have older : ¬b.id ≤ last.id := fun le => older (decide_eq_true le)
            refine ⟨nofun, fun e isB => ?_⟩
            cases isB
            refine ⟨List.mem_append_left _ member, fun f among => ?_⟩
            rcases List.mem_append.mp among with earlier | isLast
            · exact below f earlier
            · rw [List.mem_singleton.mp isLast]
              omega

section Rows

variable (events : List Event) (opts : GateOptions) (arch : String)

theorem ofArch_perm : (ofArch events opts.fromRing arch).Perm (healthOf events opts arch) := sortBy_perm _ _

theorem ofArch_pairwise : (ofArch events opts.fromRing arch).Pairwise fun x y => y.id ≤ x.id :=
  (sortBy_pairwise _ _).imp newestFirst_le.mp

/-- The newest row stands first. -/
theorem ofArch_head {events : List Event} {opts : GateOptions} {arch : String} {newest : Event}
    (first : (ofArch events opts.fromRing arch).head? = some newest) :
    newest ∈ healthOf events opts arch ∧ ∀ e ∈ healthOf events opts arch, e.id ≤ newest.id := by
  obtain ⟨rest, rows⟩ := List.head?_eq_some_iff.mp first
  have perm := ofArch_perm events opts arch
  have sorted := ofArch_pairwise events opts arch
  rw [rows] at perm sorted
  refine ⟨perm.mem_iff.mp List.mem_cons_self, fun e member => ?_⟩
  rcases List.mem_cons.mp (perm.mem_iff.mpr member) with rfl | below
  · exact Nat.le_refl _
  · exact (List.pairwise_cons.mp sorted).1 e below

/-- An ABI check of the ring young enough to be evidence. -/
def RecentAbi (now : Int) (e : Event) : Prop :=
  e.isOf "abi" opts.fromRing arch = true ∧ ∃ age ∈ e.age now, age ≤ opts.maxAge

theorem mem_recentAbi {now : Int} {e : Event} :
    e ∈ events.filter (fun e => e.isOf "abi" opts.fromRing arch && (e.age now).any (· ≤ opts.maxAge)) ↔
      e ∈ events ∧ RecentAbi opts arch now e := by
  simp [RecentAbi, Option.any_eq_true]

/-- Where the newest recent check is no error, the latest one is none. -/
theorem latestAbi_error {now : Int} (distinct : (events.map (·.id)).Nodup) :
    (∃ e, latestAbi events opts.fromRing arch now opts.maxAge = some e ∧ e.status = .error) ↔
      ∃ e ∈ events, RecentAbi opts arch now e ∧ (∀ f ∈ events, RecentAbi opts arch now f → f.id ≤ e.id) ∧
        e.status = .error := by
  have fold := foldl_newest
    (events.filter fun e => e.isOf "abi" opts.fromRing arch && (e.age now).any (· ≤ opts.maxAge))
  dsimp only at fold
  rw [← latestAbi] at fold
  obtain ⟨empty, greatest⟩ := fold
  constructor
  · rintro ⟨e, latest, failed⟩
    obtain ⟨member, newest⟩ := greatest e latest
    obtain ⟨isEvent, isRecent⟩ := (mem_recentAbi events opts arch).mp member
    exact ⟨e, isEvent, isRecent, fun f among recent => newest f ((mem_recentAbi events opts arch).mpr ⟨among, recent⟩), failed⟩
  · rintro ⟨e, isEvent, isRecent, newest, failed⟩
    have member := (mem_recentAbi events opts arch).mpr ⟨isEvent, isRecent⟩
    cases latest : latestAbi events opts.fromRing arch now opts.maxAge with
    | none =>
        rw [empty latest] at member
        cases member
    | some b =>
        obtain ⟨isRow, above⟩ := greatest b latest
        obtain ⟨isEvent', isRecent'⟩ := (mem_recentAbi events opts arch).mp isRow
        have same : b.id = e.id := Nat.le_antisymm (newest b isEvent' isRecent') (above e member)
        exact ⟨b, rfl, List.inj_on_of_nodup_map distinct isEvent' isEvent same ▸ failed⟩

/-- A row in the run of green checks, and a failure, of rows told apart by their ids: the failure is the older. -/
theorem above_failures {events : List Event} {opts : GateOptions} {arch : String} {fromHeadAt : Option Int}
    (distinct : (events.map (·.id)).Nodup) {e f : Event}
    (inRun : e ∈ (ofArch events opts.fromRing arch).takeWhile fun e => afterHead fromHeadAt e && e.status != .error)
    (member : f ∈ healthOf events opts arch) (failed : f.status = .error) : f.id < e.id := by
  have sorted := ofArch_pairwise events opts arch
  have among := (ofArch_perm events opts arch).mem_iff.mpr member
  rw [← List.takeWhile_append_dropWhile (p := fun e => afterHead fromHeadAt e && e.status != .error)
    (l := ofArch events opts.fromRing arch)] at sorted among
  have passes := List.mem_takeWhile_imp inRun
  rcases List.mem_append.mp among with inToo | after
  · have passesToo := List.mem_takeWhile_imp inToo
    simp [failed] at passesToo
  · have notBelow := (List.pairwise_append.mp sorted).2.2 e inRun f after
    have isRow : e ∈ events :=
      (List.mem_filter.mp ((ofArch_perm events opts arch).mem_iff.mp ((List.takeWhile_sublist _).mem inRun))).1
    have apart : e.id ≠ f.id := by
      intro same
      have isSame := List.inj_on_of_nodup_map distinct isRow (List.mem_filter.mp member).1 same
      rw [isSame, failed] at passes
      simp at passes
    omega

end Rows

/-! ## What no reason against it says -/

section Promoted

variable {events : List Event} {now : Int} {fromHeadAt : Option Int} {security : List (List String)}
  {opts : GateOptions} {arch : String}

theorem latestReasons_nil {latest : Option Event} :
    latestReasons now opts arch latest = [] ↔
      ∃ newest ∈ latest, newest.status ≠ .error ∧ ∃ age ∈ newest.age now, age ≤ opts.maxAge := by
  cases latest with
  | none => simp [latestReasons]
  | some e =>
      unfold latestReasons
      by_cases failed : e.status = .error
      · simp [failed]
      · dsimp only
        rw [if_neg failed]
        cases isAge : e.age now <;> simp [failed, isAge]

theorem archReasons_nil :
    archReasons events now fromHeadAt opts arch = [] ↔
      (∃ newest ∈ (ofArch events opts.fromRing arch).head?, newest.status ≠ .error ∧
        ∃ age ∈ newest.age now, age ≤ opts.maxAge) ∧
      errorsOf now (ofArch events opts.fromRing arch) < flapping ∧
      opts.soakChecks ≤ greensSince (ofArch events opts.fromRing arch) fromHeadAt ∧
      ¬∃ e, latestAbi events opts.fromRing arch now opts.maxAge = some e ∧ e.status = .error := by
  unfold archReasons
  simp only [List.append_eq_nil_iff, latestReasons_nil, and_assoc]
  refine and_congr_right fun _ => and_congr ?_ (and_congr ?_ ?_)
  · split
    · simp; omega
    · simp; omega
  · split
    · simp; omega
    · simp; omega
  · cases latestAbi events opts.fromRing arch now opts.maxAge with
    | none => simp
    | some e =>
        by_cases failed : e.status = .error
        · have kept : (some e).filter (·.status = .error) = some e := by simp [failed]
          simp [kept, failed]
        · have dropped : (some e).filter (·.status = .error) = none := by simp [failed]
          simp [dropped, failed]

/-- The failures of the last day, counted over the rows in any order. -/
theorem errorsOf_ofArch :
    errorsOf now (ofArch events opts.fromRing arch) =
      (healthOf events opts arch).countP fun e => e.status = .error ∧ ∃ age ∈ e.age now, age ≤ window := by
  unfold errorsOf inWindow
  rw [List.countP_filter, (ofArch_perm events opts arch).countP_eq]
  apply List.countP_congr
  intro e _
  simp [Option.any_eq_true]

/-- Where every check that did not fail counts, every check of the run does. -/
theorem greensSince_le (distinct : (events.map (·.id)).Nodup) {counts : Status → Bool}
    (counting : ∀ e ∈ healthOf events opts arch, e.status.unfailed = true → counts e.status = true) :
    greensSince (ofArch events opts.fromRing arch) fromHeadAt ≤
      (healthOf events opts arch).countP (Counted events fromHeadAt opts counts arch) := by
  rw [← (ofArch_perm events opts arch).countP_eq]
  have counted : ∀ e ∈ (ofArch events opts.fromRing arch).takeWhile fun e => afterHead fromHeadAt e && e.status != .error,
      Counted events fromHeadAt opts counts arch e := by
    intro e inRun
    have passes := List.mem_takeWhile_imp inRun
    rw [Bool.and_eq_true] at passes
    have isHealth := (ofArch_perm events opts arch).mem_iff.mp ((List.takeWhile_sublist _).mem inRun)
    exact ⟨counting e isHealth passes.2, passes.1, fun f member failed => above_failures distinct inRun member failed⟩
  calc greensSince (ofArch events opts.fromRing arch) fromHeadAt
      = ((ofArch events opts.fromRing arch).takeWhile fun e => afterHead fromHeadAt e && e.status != .error).countP
          (Counted events fromHeadAt opts counts arch) :=
        (List.countP_eq_length.mpr fun e inRun => decide_eq_true (counted e inRun)).symm
    _ ≤ _ := (List.takeWhile_sublist _).countP_le

theorem archEvident_of_nil (distinct : (events.map (·.id)).Nodup) {i : Nat} {counts : Status → Bool}
    (counting : ∀ e ∈ healthOf events opts arch, e.status.unfailed = true → counts e.status = true)
    (apart : ∀ e ∈ healthOf events opts arch, e.age now ≠ some opts.maxAge)
    (noReason : archReasons events now fromHeadAt opts arch = []) (safe : regressionsAt security i = []) :
    ArchEvident events now fromHeadAt security opts counts i arch := by
  obtain ⟨⟨newest, first, -, age, isAge, young⟩, steady, soaked, linked⟩ := archReasons_nil.mp noReason
  obtain ⟨isHealth, newer⟩ := ofArch_head first
  refine ⟨?_, ⟨newest, isHealth, newer, age, isAge, ?_⟩, ?_, ?_, safe⟩
  · exact Nat.le_trans soaked (greensSince_le distinct counting)
  · refine lt_of_le_of_ne young fun exact_ => ?_
    rw [exact_] at isAge
    exact apart newest isHealth isAge
  · rw [← errorsOf_ofArch]
    exact steady
  · intro e isEvent isAbi recent newestAbi failed
    refine linked ((latestAbi_error events opts arch distinct).mpr ⟨e, isEvent, ⟨isAbi, recent⟩, ?_, failed⟩)
    rintro f among ⟨isAbi', recent'⟩
    exact newestAbi f among isAbi' recent'

theorem verdictOf_promote {fromHead toSource : Option Nat} {reasons : List String}
    (promotes : verdictOf opts fromHead toSource reasons = .promote) : reasons = [] := by
  by_contra some_
  unfold verdictOf at promotes
  rw [if_pos some_] at promotes
  cases promotes

/-- A promotion comes with its evidence where none of the ring's rows is exactly as old as is allowed, and every one
of them that did not fail counts. -/
theorem evidence_of_promote (distinct : (events.map (·.id)).Nodup) {fromHead toSource : Option Nat}
    {counts : Status → Bool}
    (counting : ∀ arch ∈ opts.arches, ∀ e ∈ healthOf events opts arch, e.status.unfailed = true → counts e.status = true)
    (apart : ∀ arch ∈ opts.arches, ∀ e ∈ healthOf events opts arch, e.age now ≠ some opts.maxAge)
    (promotes : (evaluate events now fromHeadAt opts fromHead toSource security).verdict = .promote) :
    Evidence events now fromHeadAt security opts counts := by
  intro i arch isArch
  have none_ := List.flatMap_eq_nil_iff.mp (verdictOf_promote promotes) (arch, i)
    (List.mem_zipIdx_iff_getElem?.mpr isArch)
  obtain ⟨safe, noReason⟩ := List.append_eq_nil_iff.mp none_
  have member := List.mem_of_getElem? isArch
  exact archEvident_of_nil distinct (counting arch member) (apart arch member) noReason (List.map_eq_nil_iff.mp safe)

end Promoted

/-! ## What the verdict reads -/

/-- With rows told apart by their ids the fold finds the same row in any order. -/
theorem foldl_newest_perm {rows rows' : List Event} (distinct : (rows.map (·.id)).Nodup) (perm : rows.Perm rows') :
    rows.foldl (fun best e => if best.all fun b => b.id ≤ e.id then some e else best) none =
      rows'.foldl (fun best e => if best.all fun b => b.id ≤ e.id then some e else best) none := by
  obtain ⟨empty, greatest⟩ := foldl_newest rows
  obtain ⟨empty', greatest'⟩ := foldl_newest rows'
  cases best : rows.foldl (fun best e => if best.all fun b => b.id ≤ e.id then some e else best) none with
  | none =>
      have noRows := empty best
      subst noRows
      rw [List.nil_perm.mp perm]
      rfl
  | some e =>
      obtain ⟨member, newest⟩ := greatest e best
      cases best' : rows'.foldl (fun best e => if best.all fun b => b.id ≤ e.id then some e else best) none with
      | none =>
          rw [empty' best'] at perm
          rw [List.perm_nil.mp perm] at member
          cases member
      | some f =>
          obtain ⟨member', newest'⟩ := greatest' f best'
          have among := perm.mem_iff.mpr member'
          have same : e.id = f.id := Nat.le_antisymm (newest' e (perm.mem_iff.mp member)) (newest f among)
          rw [List.inj_on_of_nodup_map distinct member among same]

section SameRows

variable {one two : List Event} {opts : GateOptions}

/-- Rows the gate reads, and of them those of one kind and architecture. -/
theorem SameRead.filter (same : SameRead opts one two) {arch : String} (isArch : arch ∈ opts.arches)
    (p : Event → Bool) (reads : ∀ e, p e = true →
      e.isOf "health" opts.fromRing arch = true ∨ e.isOf "abi" opts.fromRing arch = true) :
    (one.filter p).Perm (two.filter p) := by
  have narrow : ∀ rows : List Event, (rows.filter fun e => Reads opts e).filter p = rows.filter p := by
    intro rows
    rw [List.filter_filter]
    apply List.filter_congr
    intro e _
    cases is : p e with
    | false => rfl
    | true =>
        have read : Reads opts e := ⟨arch, isArch, reads e is⟩
        simp [read]
  rw [← narrow one, ← narrow two]
  exact List.Perm.filter p same

theorem SameRead.archReasons (same : SameRead opts one two) (distinct : (one.map (·.id)).Nodup) {arch : String}
    (isArch : arch ∈ opts.arches) (now : Int) (fromHeadAt : Option Int) :
    archReasons one now fromHeadAt opts arch = archReasons two now fromHeadAt opts arch := by
  have health : ofArch one opts.fromRing arch = ofArch two opts.fromRing arch := by
    refine sortBy_eq_of_perm _ (fun x memX y memY equal => ?_) (same.filter isArch _ fun e is => .inl is)
    have ids : y.id = x.id := Nat.compare_eq_eq.mp equal
    exact List.inj_on_of_nodup_map distinct (List.mem_filter.mp memX).1 (List.mem_filter.mp memY).1 ids.symm
  have abi : latestAbi one opts.fromRing arch now opts.maxAge = latestAbi two opts.fromRing arch now opts.maxAge := by
    refine foldl_newest_perm (distinct.sublist (List.filter_sublist.map _)) (same.filter isArch _ fun e is => .inr ?_)
    exact (Bool.and_eq_true_iff.mp is).1
  unfold Gate.archReasons
  rw [health, abi]

theorem SameRead.reasonsOf (same : SameRead opts one two) (distinct : (one.map (·.id)).Nodup) (now : Int)
    (fromHeadAt : Option Int) (security : List (List String)) :
    reasonsOf one now fromHeadAt opts security = reasonsOf two now fromHeadAt opts security := by
  unfold Gate.reasonsOf
  apply List.flatMap_congr
  rintro ⟨arch, i⟩ member
  have isArch : arch ∈ opts.arches := List.mem_of_getElem? (List.mem_zipIdx_iff_getElem?.mp member)
  dsimp only
  rw [same.archReasons distinct isArch]

end SameRows

end OmarchyPool.Gate
