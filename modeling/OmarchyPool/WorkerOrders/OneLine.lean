/-
# OmarchyPool.WorkerOrders.OneLine -- an order closes once, and says so once

Every path reads and then writes one batch, and any number of them interleave.  A second close of an
order that would write the same -- the same state in the same millisecond, and at a claim the same
words -- finds its line's condition met though its UPDATE changed nothing, and writes a second final
line (`order_told_twice`).  `Clear` says that a batch does not come to such a row; in every run whose
batches are clear the journal tells every order once (`orders_told_once`).
-/
import Mathlib.Logic.Relation
import OmarchyPool.WorkerOrders.Told

namespace OmarchyPool.WorkerOrders

set_option autoImplicit false

open Lib

/-! ## The closes of a batch and the rows they come from -/

/-- The tables hold the row's order, under its worker and kind. -/
def Present (db : Db) (r : OrderRow) : Prop :=
  ∃ o ∈ db.orders, o.id = r.id ∧ o.worker = r.worker ∧ o.kind = r.kind

theorem Present.of_mem {db : Db} {r : OrderRow} (mem : r ∈ db.orders) : Present db r :=
  ⟨r, mem, rfl, rfl, rfl⟩

theorem Present.grows {db db' : Db} {r : OrderRow} (present : Present db r) (grows : Grows db db') :
    Present db' r := by
  obtain ⟨o, mem, idIs, workerIs, kindIs⟩ := present
  obtain ⟨o', mem', id', worker', kind', _⟩ := grows o mem
  exact ⟨o', mem', id'.trans idIs, worker'.trans workerIs, kind'.trans kindIs⟩

/-- Every close is of one of the rows, one close a row. -/
structure Sourced (rows : List OrderRow) (closes : List Close) : Prop where
  named : ∀ c ∈ closes, ∃ r ∈ rows, r.id = c.id ∧ r.worker = c.worker ∧ r.kind = c.kind
  once : (closes.map (·.id)).Sublist (rows.map (·.id))

theorem Sourced.append {rows others : List OrderRow} {closes more : List Close}
    (first : Sourced rows closes) (second : Sourced others more) :
    Sourced (rows ++ others) (closes ++ more) := by
  constructor
  · intro c mem
    rcases List.mem_append.mp mem with inFirst | inSecond
    · obtain ⟨r, memR, facts⟩ := first.named c inFirst
      exact ⟨r, List.mem_append_left _ memR, facts⟩
    · obtain ⟨r, memR, facts⟩ := second.named c inSecond
      exact ⟨r, List.mem_append_right _ memR, facts⟩
  · rw [List.map_append, List.map_append]
    exact first.once.append second.once

theorem Sourced.none (rows : List OrderRow) : Sourced rows [] :=
  ⟨by simp, List.nil_sublist _⟩

theorem Sourced.one {r : OrderRow} {c : Close} (idIs : r.id = c.id) (workerIs : r.worker = c.worker)
    (kindIs : r.kind = c.kind) : Sourced [r] [c] := by
  constructor
  · intro d mem
    rw [List.mem_singleton.mp mem]
    exact ⟨r, List.mem_singleton_self r, idIs, workerIs, kindIs⟩
  · rw [List.map_singleton, List.map_singleton, idIs]

theorem closesOf_append (steps more : List BatchStep) :
    closesOf (steps ++ more) = closesOf steps ++ closesOf more :=
  List.filterMap_append

/-- Row by row, whatever each row's statements are. -/
theorem Sourced.flatMap {α : Type} {row : α → OrderRow} {steps : α → List BatchStep}
    (each : ∀ x, Sourced [row x] (closesOf (steps x))) (xs : List α) :
    Sourced (xs.map row) (closesOf (xs.flatMap steps)) := by
  induction xs with
  | nil => exact Sourced.none []
  | cons x rest ih =>
      rw [List.flatMap_cons, closesOf_append]
      exact (each x).append ih

/-- A batch of closes of rows the tables hold, each unseen. -/
theorem batch_told {db : Db} {rows : List OrderRow} {steps : List BatchStep} (told : Told db)
    (present : ∀ r ∈ rows, Present db r) (nodup : (rows.map (·.id)).Nodup)
    (sourced : Sourced rows (closesOf steps)) (unseen : ∀ c ∈ closesOf steps, c.Unseen db) :
    Told (runBatch steps db) ∧ Grows db (runBatch steps db) := by
  refine runBatch_told steps told ?_ (nodup.sublist sourced.once) unseen
  intro c mem
  obtain ⟨r, memR, idIs, workerIs, kindIs⟩ := sourced.named c mem
  obtain ⟨o, memO, idO, workerO, kindO⟩ := present r memR
  exact ⟨o, memO, idO.trans idIs, workerO.trans workerIs, kindO.trans kindIs⟩

/-! ## The contract -/

/-- A batch comes to no row that is closed already and holds what one of its lines looks for. -/
def Clear : Label → Db → Prop
  | .batch steps, db => ∀ c ∈ closesOf steps, ∀ o ∈ db.orders, c.sees o = false
  | _, _ => True

instance (label : Label) (db : Db) : Decidable (Clear label db) :=
  match label with
  | .batch steps =>
      inferInstanceAs (Decidable (∀ c ∈ closesOf steps, ∀ o ∈ db.orders, c.sees o = false))
  | .read => instDecidableTrue
  | .issue => instDecidableTrue
  | .accept => instDecidableTrue
  | .elsewhere => instDecidableTrue

def toldContract : Contract Db Label := ⟨Told, Grows, Grows, Clear⟩

section Served

variable (W : Words)

/-- Where a path ends does not matter: what it wrote on the way kept the contract. -/
def Ends {α : Type} (_ : Except Unit α) (_ : Db) : Prop := True

theorem read_spec {α : Type} {read : Db → α} {s : Db} {post : Except Unit α → Db → Prop}
    (after : ∀ t, Grows s t → Told t → post (.ok (read t)) t) :
    (Program.query .read read : Path α).Spec toldContract s post :=
  Program.spec_query Grows.refl fun t grows told _ => after t grows told

theorem batch_spec {α : Type} {s : Db} {rows : List OrderRow} {steps : List BatchStep}
    {next : Db → α} (present : ∀ r ∈ rows, Present s r) (nodup : (rows.map (·.id)).Nodup)
    (sourced : Sourced rows (closesOf steps)) :
    (Program.stmt (.batch steps) (runBatch steps) fun db => .pure (next db) : Path α).Spec
      toldContract s Ends := by
  intro t grows told clear
  obtain ⟨kept, more⟩ :=
    batch_told told (fun r mem => (present r mem).grows grows) nodup sourced clear
  exact ⟨kept, more, trivial⟩

theorem readTasks_spec (stops : List OrderRow) {s : Db} :
    (readTasks stops).Spec toldContract s fun result t =>
      Grows s t ∧ ∀ tasks, result = .ok tasks → tasks.map (·.1) = stops := by
  induction stops generalizing s with
  | nil =>
      refine ⟨Grows.refl s, ?_⟩
      intro tasks is
      cases is
      rfl
  | cons r rest ih =>
      unfold readTasks
      apply Program.Spec.bind
      apply read_spec
      intro t grows _
      apply Program.Spec.bind
      apply ih.mono
      rintro (_ | tasks) u ⟨more, same⟩
      · refine ⟨grows.trans more, ?_⟩
        intro tasks is
        cases is
      · refine ⟨grows.trans more, ?_⟩
        intro all is
        cases is
        rw [List.map_cons, same tasks rfl]

/-! ## The claim -/

theorem openOrdersOf_mem {worker : String} {db : Db} {r : OrderRow}
    (mem : r ∈ openOrdersOf worker db) : r ∈ db.orders :=
  (List.mem_filter.mp ((List.mem_insertionSort _).mp mem)).1

theorem openOrdersOf_nodup {db : Db} (told : Told db) (worker : String) :
    ((openOrdersOf worker db).map (·.id)).Nodup := by
  unfold openOrdersOf
  rw [((List.perm_insertionSort _ _).map _).nodup_iff]
  exact told.nodup.sublist (List.filter_sublist.map _)

def ClaimAct.closes : ClaimAct → Bool
  | .close _ _ => true
  | _ => false

theorem closesAt_sourced (x : AfterClaim) (now : Int) (rows : List OrderRow) :
    Sourced (rows.filter fun r => (claimAct W x now r).closes) (closesOf (closesAt W x now rows)) := by
  induction rows with
  | nil => exact Sourced.none []
  | cons r rest ih =>
      unfold closesAt at ih ⊢
      cases act : claimAct W x now r with
      | close final detail =>
          rw [List.filterMap_cons_some (by rw [act]), List.filter_cons_of_pos (by rw [act]; rfl)]
          have own : Sourced [r] [claimClose r final detail now] := Sourced.one rfl rfl rfl
          exact own.append ih
      | nothing =>
          rw [List.filterMap_cons_none (by rw [act]), List.filter_cons_of_neg (by rw [act]; exact nofun)]
          exact ih
      | stop =>
          rw [List.filterMap_cons_none (by rw [act]), List.filter_cons_of_neg (by rw [act]; exact nofun)]
          exact ih
      | deliver =>
          rw [List.filterMap_cons_none (by rw [act]), List.filter_cons_of_neg (by rw [act]; exact nofun)]
          exact ih

theorem claimStop_sourced (x : AfterClaim) (now : Int) (r : OrderRow) (t : Option TaskRow) :
    Sourced [r] (closesOf (claimStop x now r t)) := by
  unfold claimStop
  split
  · split
    · split
      · exact Sourced.none [r]
      · exact Sourced.one rfl rfl rfl
    · exact Sourced.one rfl rfl rfl
  · exact Sourced.one rfl rfl rfl

theorem closesOf_deliveries (x : AfterClaim) (now : Int) (rows : List OrderRow) :
    closesOf (rows.map (deliverStep x now)) = [] := by
  unfold closesOf
  rw [List.filterMap_map]
  exact List.filterMap_eq_nil_iff.mpr fun _ _ => rfl

/-- Rows picked by two conditions that exclude each other. -/
theorem picked_nodup {rows : List OrderRow} (nodup : (rows.map (·.id)).Nodup)
    {first second : OrderRow → Bool} (apart : ∀ r, first r = true → second r = false) :
    ((rows.filter first ++ rows.filter second).map (·.id)).Nodup := by
  rw [List.map_append, List.nodup_append]
  refine ⟨nodup.sublist (List.filter_sublist.map _), nodup.sublist (List.filter_sublist.map _), ?_⟩
  intro id mem id' mem' same
  obtain ⟨r, memR, rfl⟩ := List.mem_map.mp mem
  obtain ⟨r', memR', rfl⟩ := List.mem_map.mp mem'
  obtain ⟨inRows, isFirst⟩ := List.mem_filter.mp memR
  obtain ⟨inRows', isSecond⟩ := List.mem_filter.mp memR'
  obtain rfl : r = r' := List.inj_on_of_nodup_map nodup inRows inRows' same
  rw [apart r isFirst] at isSecond
  cases isSecond

theorem takeOrders_spec (x : AfterClaim) (now : Int) {s : Db} :
    (takeOrders W x now).Spec toldContract s Ends := by
  unfold takeOrders
  split
  · trivial
  · apply Program.Spec.bind
    apply read_spec
    intro t _ told
    generalize rowsIs : openOrdersOf x.worker t = rows
    have nodup : (rows.map (·.id)).Nodup := rowsIs ▸ openOrdersOf_nodup told x.worker
    have present : ∀ r ∈ rows, Present t r := by
      intro r mem
      exact Present.of_mem (openOrdersOf_mem (rowsIs ▸ mem))
    dsimp only
    split
    · trivial
    · apply Program.Spec.bind
      apply (readTasks_spec _).mono
      rintro (_ | tasks) u ⟨grows, same⟩
      · trivial
      · have stops := same tasks rfl
        have sourced : Sourced ((rows.filter fun r => (claimAct W x now r).closes) ++
            rows.filter fun r => claimAct W x now r = .stop)
            (closesOf (closesAt W x now rows ++
              tasks.flatMap (fun s => claimStop x now s.1 s.2) ++
              (deliveriesAt W x now rows).map (deliverStep x now))) := by
          rw [closesOf_append, closesOf_append, closesOf_deliveries, List.append_nil, ← stops]
          exact (closesAt_sourced W x now rows).append
            (Sourced.flatMap (fun s : OrderRow × Option TaskRow => claimStop_sourced x now s.1 s.2) tasks)
        refine batch_spec ?_ (picked_nodup nodup ?_) sourced
        · intro r mem
          have inRows : r ∈ rows := by
            rcases List.mem_append.mp mem with closes | stop
            · exact (List.mem_filter.mp closes).1
            · exact (List.mem_filter.mp stop).1
          exact (present r inRows).grows grows
        · intro r closes
          cases act : claimAct W x now r with
          | close final detail => rfl
          | nothing => rw [act] at closes; cases closes
          | stop => rw [act] at closes; cases closes
          | deliver => rw [act] at closes; cases closes

/-! ## The cron, a Cancel and an answer -/

theorem sweepDue_sourced (now : Int) (o : OrderRow) : Sourced [o] (closesOf [sweepDue W now o]) := by
  unfold sweepDue
  split
  · exact Sourced.one rfl rfl rfl
  · split <;> exact Sourced.one rfl rfl rfl

theorem sweepStop_sourced (now : Int) (p : OrderRow × Option TaskStatus) :
    Sourced [p.1] (closesOf [sweepStop now p]) :=
  Sourced.one rfl rfl rfl

theorem flatMap_single {α : Type} (step : α → BatchStep) (xs : List α) :
    (xs.flatMap fun x => [step x]) = xs.map step := by
  induction xs with
  | nil => rfl
  | cons x rest ih => rw [List.flatMap_cons, ih, List.map_cons, List.singleton_append]

theorem stopsDue_rows (db : Db) :
    (stopsDue db).map (·.1) = db.orders.filter fun o => o.state.isOpen && o.kind = .stopTask &&
      !(o.taskId.bind db.tasks).any (fencedBy o) := by
  unfold stopsDue
  rw [List.map_map]
  exact List.map_id _

theorem sweepOrders_spec (now : Int) {s : Db} : (sweepOrders W now).Spec toldContract s Ends := by
  unfold sweepOrders
  apply Program.Spec.bind
  apply read_spec
  intro t _ told
  apply Program.Spec.bind
  apply read_spec
  intro u grows toldU
  dsimp only
  split
  · trivial
  · have sourced : Sourced ((stopsDue u).map (·.1) ++ dueOrders now t)
        (closesOf ((stopsDue u).map (sweepStop now) ++ (dueOrders now t).map (sweepDue W now))) := by
      rw [closesOf_append, ← flatMap_single (sweepStop now), ← flatMap_single (sweepDue W now)]
      refine (Sourced.flatMap (sweepStop_sourced now) (stopsDue u)).append ?_
      have due := Sourced.flatMap (sweepDue_sourced W now) (dueOrders now t)
      rw [List.map_id'] at due
      exact due
    have presentDue : ∀ r ∈ dueOrders now t, Present u r := by
      intro r mem
      exact (Present.of_mem (List.mem_filter.mp mem).1).grows grows
    have stopRow : ∀ r ∈ (stopsDue u).map (·.1), r ∈ u.orders ∧ r.kind = .stopTask := by
      intro r mem
      rw [stopsDue_rows] at mem
      obtain ⟨inTable, holds⟩ := List.mem_filter.mp mem
      simp only [Bool.and_eq_true, decide_eq_true_eq] at holds
      exact ⟨inTable, holds.1.2⟩
    refine @batch_spec Unit _ _ _ (fun _ => ()) ?_ ?_ sourced
    · intro r mem
      rcases List.mem_append.mp mem with stop | due
      · exact Present.of_mem (stopRow r stop).1
      · exact presentDue r due
    · rw [List.map_append, List.nodup_append]
      refine ⟨?_, told.nodup.sublist (List.filter_sublist.map _), ?_⟩
      · rw [stopsDue_rows]
        exact toldU.nodup.sublist (List.filter_sublist.map _)
      · -- A stop and a due order are of different kinds, and an order keeps its kind.
        intro id mem id' mem' same
        obtain ⟨r, memR, rfl⟩ := List.mem_map.mp mem
        obtain ⟨r', memR', rfl⟩ := List.mem_map.mp mem'
        obtain ⟨inTable, isStop⟩ := stopRow r memR
        obtain ⟨o, memO, idO, _, kindO⟩ := presentDue r' memR'
        obtain rfl : r = o := toldU.eq_of_id inTable memO (same.trans idO.symm)
        have notStop := (List.mem_filter.mp memR').2
        simp only [Bool.and_eq_true, decide_eq_true_eq] at notStop
        exact notStop.2 (kindO.symm.trans isStop)

theorem exec_spec {label : Label} {write : Db → Db} {s : Db}
    (keeps : ∀ t, Grows s t → Told t → Clear label t → Told (write t) ∧ Grows t (write t)) :
    (Program.exec label write : Path Unit).Spec toldContract s Ends := by
  apply Program.spec_exec
  intro t grows told clear
  obtain ⟨kept, more⟩ := keeps t grows told clear
  exact ⟨kept, more, trivial⟩

/-- A batch of one close, of a row that was read. -/
theorem oneClose_spec {s : Db} {o : OrderRow} {c : Close} (mem : o ∈ s.orders) (idIs : o.id = c.id)
    (workerIs : o.worker = c.worker) (kindIs : o.kind = c.kind) :
    (Program.exec (.batch [.close c]) (runBatch [.close c]) : Path Unit).Spec toldContract s Ends := by
  apply exec_spec
  intro t grows told clear
  refine @batch_told t [o] [.close c] told ?_ (List.nodup_singleton _)
    (Sourced.one idIs workerIs kindIs) clear
  intro r inRows
  rw [List.mem_singleton.mp inRows]
  exact (Present.of_mem mem).grows grows

theorem cancelOrder_spec (worker oid login : String) (now : Int) {s : Db} :
    (cancelOrder worker oid login now).Spec toldContract s Ends := by
  unfold cancelOrder
  apply Program.Spec.bind
  apply read_spec
  intro t _ _
  dsimp only
  split
  · trivial
  · rename_i o found
    split
    · trivial
    · exact oneClose_spec (List.mem_of_find?_eq_some found) rfl rfl rfl

theorem acceptedBy_told {db : Db} (told : Told db) (r : Answer) (now : Int) (code detail : String) :
    Told (acceptedBy r now code detail db) ∧ Grows db (acceptedBy r now code detail db) := by
  apply updateOrders_open told
  · intro o
    split <;> exact ⟨rfl, rfl, rfl⟩
  · intro o
    split
    · rename_i found
      simp only [Bool.and_eq_true, decide_eq_true_eq] at found
      have delivered : o.state.isOpen = true := by
        rw [found.1.2]
        rfl
      exact .inr ⟨delivered, delivered⟩
    · exact .inl rfl

theorem answerOrder_spec (r : Answer) (now : Int) {s : Db} :
    (answerOrder W r now).Spec toldContract s Ends := by
  unfold answerOrder
  apply Program.Spec.bind
  apply read_spec
  intro t _ _
  dsimp only
  split
  · trivial
  rename_i o found
  split
  · trivial
  split
  · trivial
  split
  · trivial
  split
  · trivial
  split
  · trivial
  split
  · exact exec_spec fun u _ told _ => acceptedBy_told told r now _ _
  · exact oneClose_spec (List.mem_of_find?_eq_some found) rfl rfl rfl

theorem issue_spec (id : String) (a : IssueAsk) {s : Db} :
    (Program.exec .issue fun db => (issueOrder id a db).toOption.getD db : Path Unit).Spec
      toldContract s Ends := by
  apply exec_spec
  intro t _ told _
  cases ok : issueOrder id a t with
  | error why => exact ⟨told, Grows.refl t⟩
  | ok db' => exact issueOrder_told told ok

theorem serve_spec (request : Request) {s : Db} : (serve W request).Spec toldContract s Ends := by
  cases request with
  | issue id a => exact issue_spec id a
  | claim x now =>
      apply Program.Spec.bind
      apply (takeOrders_spec W x now).mono
      rintro (_ | _) _ _ <;> trivial
  | sweep now => exact sweepOrders_spec W now
  | cancel worker oid login now => exact cancelOrder_spec worker oid login now
  | answer r now => exact answerOrder_spec W r now
  | elsewhere workers tasks =>
      exact exec_spec fun u _ told _ => ⟨⟨told.nodup, told.known, told.rows⟩, Grows.refl u⟩

end Served

/-! ## Every run -/

abbrev Pool : Type := Config Db Request Label Unit Unit

/-- From one configuration to another by moves that are each allowed. -/
def Onward (W : Words) (meets : Label → Db → Prop) : Pool → Pool → Prop :=
  Relation.ReflTransGen fun c c' => ∃ m, c.Allows meets m ∧ c' = c.move (serve W) m

theorem Onward.reachable {W : Words} {meets : Label → Db → Prop} {init : Db} {c c' : Pool}
    (reached : Reachable (serve W) meets init c) (onward : Onward W meets c c') :
    Reachable (serve W) meets init c' := by
  induction onward with
  | refl => exact reached
  | tail _ step ih =>
      obtain ⟨m, allowed, rfl⟩ := step
      exact .move m ih allowed

theorem reachable_told {W : Words} {init : Db} (start : Told init) {c : Pool}
    (reached : Reachable (serve W) Clear init c) :
    Told c.store ∧ ∀ th ∈ c.threads,
      InFlight toldContract (fun _ => toldContract.guar) (fun _ => Ends) c.store th :=
  reachable_spec toldContract (fun _ => Ends) Grows.refl (fun _ _ _ => Grows.trans)
    (fun _ _ grows => grows) start (fun request _ _ => serve_spec W request) reached

theorem onward_grows {W : Words} {init : Db} (start : Told init) {c c' : Pool}
    (reached : Reachable (serve W) Clear init c) (onward : Onward W Clear c c') :
    Grows c.store c'.store := by
  induction onward with
  | refl => exact Grows.refl c.store
  | @tail d e before step ih =>
      obtain ⟨m, allowed, rfl⟩ := step
      refine ih.trans ?_
      cases m with
      | spawn request => exact Grows.refl d.store
      | run thread =>
          obtain ⟨told, flying⟩ := reachable_told start (Onward.reachable reached before)
          show Grows d.store (d.advance thread).store
          cases found : d.threads[thread]? with
          | none =>
              rw [Config.advance, found]
              exact Grows.refl d.store
          | some th =>
              obtain ⟨request, p⟩ := th
              have inFlight := flying _ (List.mem_of_getElem? found)
              rcases advance_guar told inFlight found allowed with still | moved
              · rw [still]
                exact Grows.refl d.store
              · exact moved

/-- In every run whose batches are clear, from tables with no orders: every order has one issue
line; an open one has no final line, and a closed one has one, with the state and the words its row
ended with; and a closed order stays as it is. -/
theorem orders_told_once {W : Words} {init : Db} (noOrders : init.orders = [])
    (noLines : init.events = []) {c : Pool} (reached : Reachable (serve W) Clear init c) :
    (∀ o ∈ c.store.orders, (issueLines c.store.events o.id).length = 1 ∧
      (o.state.isOpen = true → finalLines c.store.events o.id = []) ∧
      (o.state.isOpen = false → ∃ detail, o.detail = some detail ∧
        finalLines c.store.events o.id = [finalLineOf o o.state detail])) ∧
    ∀ c', Onward W Clear c c' →
      ∀ o ∈ c.store.orders, o.state.isOpen = false → o ∈ c'.store.orders ∧
        ∀ o' ∈ c'.store.orders, o'.id = o.id → o' = o := by
  have start : Told init :=
    ⟨by rw [noOrders]; exact List.nodup_nil, by rw [noLines]; simp, by rw [noOrders]; simp⟩
  refine ⟨?_, ?_⟩
  · intro o mem
    have row := (reachable_told start reached).1.rows o mem
    exact ⟨row.issue, row.waiting, row.closed⟩
  · intro c' onward o mem closed
    obtain ⟨o', mem', _, _, _, kept⟩ := onward_grows start reached onward o mem
    obtain rfl := kept closed
    refine ⟨mem', ?_⟩
    intro p memP same
    exact (reachable_told start (Onward.reachable reached onward)).1.eq_of_id memP mem' same

/-! An order nobody claimed for, met by a claim and by the sweep once it has expired. -/

def plainWords : Words where
  versionWord := fun _ otherwise => otherwise
  runsRelease := fun _ => false
  updateExpired := "not replaced within 6 h"
  answerCode := fun _ _ _ => "other"
  codeSentence := fun _ _ _ _ _ => "answered"

def noOrdersYet : Db := ⟨[], fun _ => some ⟨false, none, none⟩, fun _ => none, []⟩

def askedRestart : IssueAsk where
  worker := "w1"
  kind := .restart
  reason := "Restart from the worker's page"
  login := "ana"
  via := some .web
  rule := none
  unlessAgentOk := false
  site := none
  baselineAtIssue := none
  auto := none
  deliverTo := none
  task := none
  host := false
  resumed := none
  now := 0
  lineStatus := .ok
  lineSummary := "w1: restart ordered by ana"

def lateClaim : AfterClaim where
  worker := "w1"
  openOrders := true
  takes := some [.restart]
  version := none
  agentVia := none
  process := some "i1"
  processSince := none
  conflict := false
  status := some "ok"
  checkedAt := none
  listed := []

/-- Both read the order while it waits; then the claim writes its batch, then the sweep. -/
def raceMoves (swept : Int) : List (Move Request) :=
  [.spawn (.issue "wo_1" askedRestart), .run 0, .spawn (.claim lateClaim 21600000), .run 1,
    .spawn (.sweep swept), .run 2, .run 2, .run 1, .run 2]

def raced (swept : Int) : Pool := (raceMoves swept).foldl (Config.move (serve plainWords)) ⟨noOrdersYet, []⟩

/-- In one millisecond the order is told closed twice. -/
theorem order_told_twice :
    Reachable (serve plainWords) Unrestricted noOrdersYet (raced 21600000) ∧
      (finalLines (raced 21600000).store.events "wo_1").length = 2 :=
  ⟨reachable_moves (serve plainWords) Unrestricted noOrdersYet (raceMoves 21600000)
    (by decide), by decide⟩

theorem orders_told_once_raced :
    Reachable (serve plainWords) Clear noOrdersYet (raced 21600001) ∧
      ∀ o ∈ (raced 21600001).store.orders,
        (issueLines (raced 21600001).store.events o.id).length = 1 := by
  have reached : Reachable (serve plainWords) Clear noOrdersYet (raced 21600001) :=
    reachable_moves (serve plainWords) Clear noOrdersYet (raceMoves 21600001) (by decide)
  exact ⟨reached, fun o mem => ((orders_told_once rfl rfl reached).1 o mem).1⟩

end OmarchyPool.WorkerOrders
