/-
# OmarchyPool.WorkerOrders.Caps -- the caps hold over every window

Each INSERT counts only what its own clock calls the last hour or the last day, and the clocks of
two INSERTs need not agree.  `Runs` is any sequence of them, with anything else happening to the
tables in between as long as no order younger than a day is missing when the next one counts.

`Runs.trailing` is the step: what an INSERT lets through saw fewer than the cap of whatever its
group counts.  The window's bound is then the library's (`Trailing.countIn_le`).
-/
import Mathlib.Data.List.Perm.Subperm
import OmarchyPool.Lib.Window
import OmarchyPool.WorkerOrders.Issue

namespace OmarchyPool.WorkerOrders

set_option autoImplicit false

open Lib

/-! ## Runs of issues -/

/-- What the caps count of an order: nothing of it ever changes. -/
structure Issued where
  id : String
  worker : String
  kind : OrderKind
  issuedBy : String
  issuedAt : Int
  deriving DecidableEq

def OrderRow.issued (o : OrderRow) : Issued := ⟨o.id, o.worker, o.kind, o.issuedBy, o.issuedAt⟩

theorem newOrder_issued (id : String) (a : IssueAsk) :
    (newOrder id a).issued = ⟨id, a.worker, a.kind, a.login, a.now⟩ := rfl

/-- Every order that is younger than a day at `now` is in the table. -/
def KeepsYoung (now : Int) (issued : List Issued) (db : Db) : Prop :=
  ∀ o ∈ issued, now - day < o.issuedAt → o ∈ db.orders.map OrderRow.issued

instance (now : Int) (issued : List Issued) (db : Db) : Decidable (KeepsYoung now issued db) :=
  inferInstanceAs (Decidable (∀ o ∈ issued, now - day < o.issuedAt → o ∈ db.orders.map OrderRow.issued))

/-- Any sequence of issues, newest first.  `host` says which workers are a host's registration:
the ask carries the flag the worker's row has. -/
inductive Runs (host : String → Bool) : Db → List Issued → Prop where
  | start (db : Db) : Runs host db []
  | issue {db db' : Db} {issued : List Issued} (id : String) (a : IssueAsk) :
      Runs host db issued → db.isHost a.worker = host a.worker → a.host = host a.worker →
      KeepsYoung a.now issued db → issueOrder id a db = .ok db' →
      Runs host db' ((newOrder id a).issued :: issued)
  | elsewhere {db : Db} {issued : List Issued} (db' : Db) : Runs host db issued →
      Runs host db' issued

/-! ## What one INSERT checked -/

/-- What the history counts, the table counts. -/
theorem countSince_ge {db : Db} {issued : List Issued} {now width : Int} (nodup : issued.Nodup)
    (short : width ≤ day) (kept : KeepsYoung now issued db) (counted : Issued → Bool) :
    issued.countP (fun o => counted o && decide (now - width < o.issuedAt)) ≤
      db.countSince (now - width) (fun o => counted o.issued) := by
  have young : issued.filter (fun o => counted o && decide (now - width < o.issuedAt)) ⊆
      (db.orders.map OrderRow.issued).filter
        (fun o => counted o && decide (now - width < o.issuedAt)) := by
    intro o mem
    obtain ⟨inHistory, holds⟩ := List.mem_filter.mp mem
    refine List.mem_filter.mpr ⟨kept o inHistory ?_, holds⟩
    simp only [Bool.and_eq_true, decide_eq_true_eq] at holds
    omega
  have fits := (List.subperm_of_subset (nodup.filter _) young).length_le
  rw [← List.countP_eq_length_filter, ← List.countP_eq_length_filter, List.countP_map] at fits
  exact fits

theorem Runs.nodup {host : String → Bool} {db : Db} {issued : List Issued}
    (run : Runs host db issued) : issued.Nodup := by
  induction run with
  | start db => exact List.nodup_nil
  | issue id a _ _ _ kept ok ih =>
      refine List.nodup_cons.mpr ⟨?_, ih⟩
      intro again
      have young : a.now - day < (newOrder id a).issued.issuedAt := by
        show a.now - day < a.now
        unfold day hour minute
        omega
      obtain ⟨o, mem, same⟩ := List.mem_map.mp (kept _ again young)
      exact (issueOrder_ok ok).2.1 o mem (congrArg Issued.id same)
  | elsewhere _ _ ih => exact ih

/-- A limit that every INSERT of a counted order looks at is looked at along the whole run. -/
theorem Runs.trailing {host : String → Bool} {counted : Issued → Bool} {limit : Nat} {width : Int}
    (short : width ≤ day)
    (checked : ∀ (db : Db) (id : String) (a : IssueAsk), db.isHost a.worker = host a.worker →
      a.host = host a.worker → issueGuard a db = true → counted (newOrder id a).issued = true →
      db.countSince (a.now - width) (fun o => counted o.issued) < limit)
    {db : Db} {issued : List Issued} (run : Runs host db issued) :
    Window.Trailing Issued.issuedAt counted limit width issued := by
  induction run with
  | start db => trivial
  | issue id a before row flag kept ok ih =>
      refine ⟨ih, ?_⟩
      intro isCounted
      calc _ ≤ _ := countSince_ge before.nodup short kept counted
        _ < limit := checked _ id a row flag (issueOrder_ok ok).1 isCounted
  | elsewhere _ _ ih => exact ih

theorem Db.countSince_mono {db : Db} {since : Int} {p q : OrderRow → Bool}
    (more : ∀ o, p o = true → q o = true) : db.countSince since p ≤ db.countSince since q := by
  apply List.countP_mono_left
  intro o _ holds
  rw [Bool.and_eq_true] at holds ⊢
  exact ⟨more o holds.1, holds.2⟩

/-! ## Each cap -/

section Checked

variable {host : String → Bool} {db : Db} {id : String} {a : IssueAsk}

theorem issueGuard_parts (guarded : issueGuard a db = true) :
    underWorkerCap a db = true ∧ underLoginCap a db = true ∧ underPoolCaps a db = true := by
  simp only [issueGuard, Bool.and_eq_true] at guarded
  exact ⟨guarded.1.1.1, guarded.1.1.2, guarded.1.2⟩

/-- Orders of the group of `kind` on `worker`. -/
def inGroup (host : String → Bool) (worker : String) (kind : OrderKind) (o : Issued) : Bool :=
  o.worker = worker && (groupOf (host worker) kind).contains o.kind

theorem inGroup_iff {worker : String} {kind : OrderKind} {o : Issued} :
    inGroup host worker kind o = true ↔
      o.worker = worker ∧ (groupOf (host worker) kind).contains o.kind = true := by
  simp [inGroup]

/-- Every kind of a group forms that group, under one cap. -/
theorem groupOf_eq {isHost : Bool} {kind other : OrderKind} (capped : kind ≠ .resume)
    (mem : (groupOf isHost kind).contains other = true) :
    other ≠ .resume ∧ groupOf isHost other = groupOf isHost kind ∧ capOf other = capOf kind := by
  revert mem capped
  cases isHost <;> cases kind <;> cases other <;> decide

theorem checked_group {worker : String} {kind : OrderKind} (capped : kind ≠ .resume)
    (flag : a.host = host a.worker) (guarded : issueGuard a db = true)
    (mem : inGroup host worker kind (newOrder id a).issued = true) :
    db.countSince (a.now - hour) (fun o => inGroup host worker kind o.issued) < capOf kind := by
  obtain ⟨rfl, inside⟩ :
      a.worker = worker ∧ (groupOf (host worker) kind).contains a.kind = true := inGroup_iff.mp mem
  obtain ⟨notResume, sameGroup, sameCap⟩ := groupOf_eq capped inside
  have under := (issueGuard_parts guarded).1
  simp only [underWorkerCap, notResume, decide_false, Bool.false_or, decide_eq_true_eq, flag,
    sameGroup, sameCap] at under
  exact under

/-- A person's orders, but for resumes and the stops of a host's tasks. -/
def byLogin (host : String → Bool) (login : String) (o : Issued) : Bool :=
  o.issuedBy = login && o.kind ≠ .resume && !(o.kind = .stopTask && host o.worker)

def stopsBy (login : String) (o : Issued) : Bool := o.issuedBy = login && o.kind = .stopTask

theorem byLogin_iff {login : String} {o : Issued} :
    byLogin host login o = true ↔
      o.issuedBy = login ∧ o.kind ≠ .resume ∧ (decide (o.kind = .stopTask) && host o.worker) = false := by
  rw [byLogin, Bool.and_eq_true, Bool.and_eq_true, and_assoc, Bool.not_eq_true', decide_eq_true_eq,
    decide_eq_true_eq]

theorem stopsBy_iff {login : String} {o : Issued} :
    stopsBy login o = true ↔ o.issuedBy = login ∧ o.kind = .stopTask := by
  simp [stopsBy]

theorem checked_login {login : String} (person : isPool login = false)
    (row : db.isHost a.worker = host a.worker) (guarded : issueGuard a db = true)
    (mem : byLogin host login (newOrder id a).issued = true) :
    db.countSince (a.now - hour) (fun o => byLogin host login o.issued) <
      maxOrdersPerLoginHour := by
  obtain ⟨rfl, notResume, notHostStop⟩ : a.login = login ∧ a.kind ≠ .resume ∧
      (decide (a.kind = .stopTask) && host a.worker) = false := byLogin_iff.mp mem
  have under := (issueGuard_parts guarded).2.1
  simp only [underLoginCap, person, notResume, decide_false, Bool.false_or, row, notHostStop,
    Bool.false_eq_true, if_false, decide_eq_true_eq] at under
  refine lt_of_le_of_lt (Db.countSince_mono ?_) under
  intro o holds
  obtain ⟨sameLogin, other, _⟩ := byLogin_iff.mp holds
  rw [Bool.and_eq_true, decide_eq_true_eq, decide_eq_true_eq]
  exact ⟨sameLogin, other⟩

theorem checked_stops {login : String} (person : isPool login = false)
    (guarded : issueGuard a db = true) (mem : stopsBy login (newOrder id a).issued = true) :
    db.countSince (a.now - hour) (fun o => stopsBy login o.issued) < maxStopsPerLoginHour := by
  obtain ⟨rfl, isStop⟩ : a.login = login ∧ a.kind = .stopTask := stopsBy_iff.mp mem
  have under := (issueGuard_parts guarded).2.1
  simp only [underLoginCap, person, isStop, reduceCtorEq, decide_false, Bool.false_or, decide_true,
    Bool.true_and] at under
  split at under
  · exact decide_eq_true_eq.mp under
  · -- A stop of another worker's task is under the login's twenty, which count its stops too.
    have twenty := decide_eq_true_eq.mp under
    have fewer : db.countSince (a.now - hour) (fun o => stopsBy a.login o.issued) ≤
        db.countSince (a.now - hour) (fun o => o.issuedBy = a.login && o.kind ≠ .resume) := by
      apply Db.countSince_mono
      intro o holds
      obtain ⟨sameLogin, stops⟩ := stopsBy_iff.mp holds
      have notResume : o.kind ≠ .resume := by
        rw [show o.kind = .stopTask from stops]
        decide
      rw [Bool.and_eq_true, decide_eq_true_eq, decide_eq_true_eq]
      exact ⟨sameLogin, notResume⟩
    exact lt_of_le_of_lt fewer (lt_trans twenty (by decide))

def poolRestarts (o : Issued) : Bool := isPool o.issuedBy && o.kind.restartType

def communityRestarts (o : Issued) : Bool := o.issuedBy = poolCommunity && o.kind.restartType

def poolOrders (o : Issued) : Bool := isPool o.issuedBy

def communityOrders (o : Issued) : Bool := o.issuedBy = poolCommunity

theorem checked_poolRestarts (guarded : issueGuard a db = true)
    (mem : poolRestarts (newOrder id a).issued = true) :
    db.countSince (a.now - hour) (fun o => poolRestarts o.issued) < maxPoolRestartsPerHour := by
  simp only [newOrder_issued, poolRestarts, Bool.and_eq_true] at mem
  have under := (issueGuard_parts guarded).2.2
  simp only [underPoolCaps, Bool.and_eq_true, mem.1, mem.2, Bool.not_true, Bool.false_or,
    decide_eq_true_eq] at under
  exact under.1.1.1

theorem checked_communityRestarts (guarded : issueGuard a db = true)
    (mem : communityRestarts (newOrder id a).issued = true) :
    db.countSince (a.now - hour) (fun o => communityRestarts o.issued) <
      maxPoolCommunityRestartsPerHour := by
  obtain ⟨community, restarts⟩ := Bool.and_eq_true_iff.mp mem
  have isCommunity : a.login = poolCommunity := of_decide_eq_true community
  have isRestart : a.kind.restartType = true := restarts
  have under := (issueGuard_parts guarded).2.2
  simp only [underPoolCaps, Bool.and_eq_true, isCommunity, isRestart, ne_eq, not_true, decide_false,
    Bool.not_true, Bool.false_or, decide_eq_true_eq] at under
  exact under.1.1.2

theorem checked_poolOrders (guarded : issueGuard a db = true)
    (mem : poolOrders (newOrder id a).issued = true) :
    db.countSince (a.now - day) (fun o => poolOrders o.issued) < maxPoolOrdersPerDay := by
  simp only [newOrder_issued, poolOrders] at mem
  have under := (issueGuard_parts guarded).2.2
  simp only [underPoolCaps, Bool.and_eq_true, mem, Bool.not_true, Bool.false_or,
    decide_eq_true_eq] at under
  exact under.1.2

theorem checked_communityOrders (guarded : issueGuard a db = true)
    (mem : communityOrders (newOrder id a).issued = true) :
    db.countSince (a.now - day) (fun o => communityOrders o.issued) <
      maxPoolCommunityOrdersPerDay := by
  have isCommunity : a.login = poolCommunity := of_decide_eq_true mem
  have under := (issueGuard_parts guarded).2.2
  simp only [underPoolCaps, Bool.and_eq_true, isCommunity, ne_eq, not_true, decide_false, Bool.false_or,
    decide_eq_true_eq] at under
  exact under.2

end Checked

/-! ## Every window -/

/-- How many of the counted orders were issued in the window. -/
noncomputable def issuedIn (counted : Issued → Bool) (window : Set ℝ) (issued : List Issued) : Nat :=
  Window.countIn Issued.issuedAt counted window issued

/-- Over every hour and every day, whatever the clocks of the INSERTs, no cap is passed. -/
theorem caps_hold {host : String → Bool} {db : Db} {issued : List Issued}
    (run : Runs host db issued) :
    (∀ window, Window.IsWindow hour window →
      (∀ worker kind, kind ≠ .resume →
        issuedIn (inGroup host worker kind) window issued ≤ capOf kind) ∧
      (∀ login, isPool login = false →
        issuedIn (byLogin host login) window issued ≤ maxOrdersPerLoginHour ∧
        issuedIn (stopsBy login) window issued ≤ maxStopsPerLoginHour) ∧
      issuedIn poolRestarts window issued ≤ maxPoolRestartsPerHour ∧
      issuedIn communityRestarts window issued ≤ maxPoolCommunityRestartsPerHour) ∧
    (∀ window, Window.IsWindow day window →
      issuedIn poolOrders window issued ≤ maxPoolOrdersPerDay ∧
      issuedIn communityOrders window issued ≤ maxPoolCommunityOrdersPerDay) := by
  have anHour : hour ≤ day := by decide
  constructor
  · intro window is
    refine ⟨?_, ?_, ?_, ?_⟩
    · intro worker kind capped
      apply (run.trailing anHour _).countIn_le is
      intro db id a _ flag guarded mem
      exact checked_group capped flag guarded mem
    · intro login person
      constructor
      · apply (run.trailing anHour _).countIn_le is
        intro db id a row _ guarded mem
        exact checked_login person row guarded mem
      · apply (run.trailing anHour _).countIn_le is
        intro db id a _ _ guarded mem
        exact checked_stops person guarded mem
    · apply (run.trailing anHour _).countIn_le is
      intro db id a _ _ guarded mem
      exact checked_poolRestarts guarded mem
    · apply (run.trailing anHour _).countIn_le is
      intro db id a _ _ guarded mem
      exact checked_communityRestarts guarded mem
  · intro window is
    constructor
    · apply (run.trailing (le_refl day) _).countIn_le is
      intro db id a _ _ guarded mem
      exact checked_poolOrders guarded mem
    · apply (run.trailing (le_refl day) _).countIn_le is
      intro db id a _ _ guarded mem
      exact checked_communityOrders guarded mem

/-! Two restarts, the second by a clock ten minutes behind the first one's. -/

def restartBy (login worker : String) (now : Int) : IssueAsk where
  worker := worker
  kind := .restart
  reason := ""
  login := login
  via := some .web
  rule := none
  unlessAgentOk := false
  site := none
  baselineAtIssue := none
  auto := none
  deliverTo := none
  task := none
  host := false
  resumed := none
  now := now
  lineStatus := .ok
  lineSummary := ""

def emptyDb : Db := ⟨[], fun _ => some ⟨false, none, none⟩, fun _ => none, []⟩

def skewedFirst : Db := afterInsert "wo_1" (restartBy "ana" "w1" 600000)
  { emptyDb with orders := [newOrder "wo_1" (restartBy "ana" "w1" 600000)] }

def skewedSecond : Db := afterInsert "wo_2" (restartBy "ana" "w2" 0)
  { skewedFirst with orders := skewedFirst.orders ++ [newOrder "wo_2" (restartBy "ana" "w2" 0)] }

def skewedIssues : List Issued :=
  [(newOrder "wo_2" (restartBy "ana" "w2" 0)).issued,
    (newOrder "wo_1" (restartBy "ana" "w1" 600000)).issued]

theorem skewed_runs : Runs (fun _ => false) skewedSecond skewedIssues := by
  have first : Runs (fun _ => false) skewedFirst
      [(newOrder "wo_1" (restartBy "ana" "w1" 600000)).issued] := by
    refine .issue "wo_1" _ (.start emptyDb) rfl rfl (by decide) ?_
    exact issueOrder_eq_ok (by decide) (by decide) (by decide)
      (by decide)
  refine .issue "wo_2" _ first rfl rfl (by decide) ?_
  exact issueOrder_eq_ok (by decide) (by decide) (by decide)
    (by decide)

theorem caps_hold_skewed :
    Runs (fun _ => false) skewedSecond skewedIssues ∧
      issuedIn (byLogin (fun _ => false) "ana") (Set.Ico 0 (0 + hour)) skewedIssues ≤ 20 :=
  ⟨skewed_runs, (((caps_hold skewed_runs).1 _ ⟨0, .inl rfl⟩).2.1 "ana" (by decide)).1⟩

end OmarchyPool.WorkerOrders
