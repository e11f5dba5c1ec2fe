/-
# OmarchyPool.WorkerOrders.Told -- what the journal owes an order, write by write

`Told` is what the journal owes every order: one issue line, no final line while the order is open,
and once it is closed one final line with the state and the words its row ended with.  `Grows` says
what no path takes back: a row stays, and a closed one stays as it is.

A close finds that it won by finding in the row what it wrote.  `Close.Unseen` says that no row
holds that already; a batch of closes that are unseen, one an order, keeps `Told`
(`runBatch_told`), and so does an issue, a Resume's included (`issueOrder_told`).
-/
import Mathlib.Data.List.Nodup
import OmarchyPool.WorkerOrders.Closing

namespace OmarchyPool.WorkerOrders

set_option autoImplicit false

open Lib

/-! ## What the journal owes an order -/

def issueLines (events : List Line) (id : String) : List Line :=
  events.filter fun l => l.order = id && l.state.isOpen

def finalLines (events : List Line) (id : String) : List Line :=
  events.filter fun l => l.order = id && !l.state.isOpen

structure ToldRow (events : List Line) (o : OrderRow) : Prop where
  issue : (issueLines events o.id).length = 1
  waiting : o.state.isOpen = true → finalLines events o.id = []
  closed : o.state.isOpen = false →
    ∃ detail, o.detail = some detail ∧ finalLines events o.id = [finalLineOf o o.state detail]

structure Told (db : Db) : Prop where
  nodup : (db.orders.map (·.id)).Nodup
  known : ∀ l ∈ db.events, ∃ o ∈ db.orders, o.id = l.order
  rows : ∀ o ∈ db.orders, ToldRow db.events o

/-- Rows stay, with what names them; a closed row stays as it is. -/
def Grows (db db' : Db) : Prop :=
  ∀ o ∈ db.orders, ∃ o' ∈ db'.orders, o'.id = o.id ∧ o'.worker = o.worker ∧ o'.kind = o.kind ∧
    (o.state.isOpen = false → o' = o)

theorem Grows.refl (db : Db) : Grows db db := fun o mem => ⟨o, mem, rfl, rfl, rfl, fun _ => rfl⟩

theorem Grows.trans {a b c : Db} (first : Grows a b) (second : Grows b c) : Grows a c := by
  intro o mem
  obtain ⟨p, memP, idP, workerP, kindP, keptP⟩ := first o mem
  obtain ⟨q, memQ, idQ, workerQ, kindQ, keptQ⟩ := second p memP
  refine ⟨q, memQ, idQ.trans idP, workerQ.trans workerP, kindQ.trans kindP, ?_⟩
  intro closed
  obtain rfl := keptP closed
  exact keptQ closed

theorem Told.eq_of_id {db : Db} (told : Told db) {o p : OrderRow} (memO : o ∈ db.orders)
    (memP : p ∈ db.orders) (same : o.id = p.id) : o = p :=
  List.inj_on_of_nodup_map told.nodup memO memP same

/-! ## Lines -/

theorem finalLines_append (events : List Line) (l : Line) (id : String) :
    finalLines (events ++ [l]) id =
      finalLines events id ++ if l.order = id ∧ l.state.isOpen = false then [l] else [] := by
  unfold finalLines
  rw [List.filter_append, List.filter_singleton]
  congr 1
  simp [Bool.and_eq_true]

theorem issueLines_append (events : List Line) (l : Line) (id : String) :
    issueLines (events ++ [l]) id =
      issueLines events id ++ if l.order = id ∧ l.state.isOpen = true then [l] else [] := by
  unfold issueLines
  rw [List.filter_append, List.filter_singleton]
  congr 1
  simp [Bool.and_eq_true]

/-- A line about another order changes nothing of what is owed to this one. -/
theorem ToldRow.other {events : List Line} {o : OrderRow} (told : ToldRow events o) {l : Line}
    (other : l.order ≠ o.id) : ToldRow (events ++ [l]) o := by
  have issue : issueLines (events ++ [l]) o.id = issueLines events o.id := by
    simp [issueLines_append, other]
  have final : finalLines (events ++ [l]) o.id = finalLines events o.id := by
    simp [finalLines_append, other]
  exact ⟨by rw [issue]; exact told.issue, by rw [final]; exact told.waiting,
    by rw [final]; exact told.closed⟩

/-- An order that stays open is owed what it was owed. -/
theorem ToldRow.stillOpen {events : List Line} {o o' : OrderRow} (told : ToldRow events o)
    (same : o'.id = o.id) (isOpen : o.state.isOpen = true) (isOpen' : o'.state.isOpen = true) :
    ToldRow events o' := by
  refine ⟨by rw [same]; exact told.issue, ?_, ?_⟩
  · intro _
    rw [same]
    exact told.waiting isOpen
  · intro closed
    rw [isOpen'] at closed
    cases closed

/-- An open order that closes with its line. -/
theorem ToldRow.close {events : List Line} {o o' : OrderRow} {state : OrderState} {detail : String}
    (told : ToldRow events o) (isOpen : o.state.isOpen = true) (final : state.isOpen = false)
    (same : o'.id = o.id) (sameWorker : o'.worker = o.worker) (sameKind : o'.kind = o.kind)
    (stateIs : o'.state = state) (detailIs : o'.detail = some detail) :
    ToldRow (events ++ [finalLineOf o state detail]) o' := by
  have isLine : (finalLineOf o state detail).order = o.id := rfl
  have lineFinal : (finalLineOf o state detail).state.isOpen = false := final
  refine ⟨?_, ?_, ?_⟩
  · rw [same, issueLines_append]
    simp only [lineFinal, Bool.false_eq_true, and_false, if_false, List.append_nil]
    exact told.issue
  · intro isOpen'
    rw [stateIs, final] at isOpen'
    cases isOpen'
  · intro _
    refine ⟨detail, detailIs, ?_⟩
    have sameLine : finalLineOf o' o'.state detail = finalLineOf o state detail := by
      simp [finalLineOf, same, sameWorker, sameKind, stateIs]
    rw [same, finalLines_append, told.waiting isOpen, if_pos ⟨isLine, lineFinal⟩, sameLine,
      List.nil_append]

/-! ## One close -/

theorem Final.not_open (f : Final) : f.state.isOpen = false := by cases f <;> rfl

theorem Close.source_open (c : Close) : c.source.isOpen = true := by
  unfold Close.source
  split <;> rfl

/-- The order is one the tables hold, under the worker and the kind the close names. -/
def Close.Names (c : Close) (db : Db) : Prop :=
  ∃ o ∈ db.orders, o.id = c.id ∧ o.worker = c.worker ∧ o.kind = c.kind

theorem Close.Names.grows {c : Close} {db db' : Db} (names : c.Names db) (grows : Grows db db') :
    c.Names db' := by
  obtain ⟨o, mem, idIs, workerIs, kindIs⟩ := names
  obtain ⟨o', mem', id', worker', kind', _⟩ := grows o mem
  exact ⟨o', mem', id'.trans idIs, worker'.trans workerIs, kind'.trans kindIs⟩

/-- No row holds already what the close's line looks for. -/
def Close.Unseen (c : Close) (db : Db) : Prop := ∀ o ∈ db.orders, c.sees o = false

theorem Close.takes_open {c : Close} {db : Db} {o : OrderRow} (takes : c.takes db o = true) :
    o.id = c.id ∧ o.state.isOpen = true := by
  simp only [Close.takes, Bool.and_eq_true, decide_eq_true_eq] at takes
  obtain ⟨⟨⟨idIs, stateIs⟩, _⟩, _⟩ := takes
  exact ⟨idIs, by rw [stateIs]; exact c.source_open⟩

theorem Close.sees_row {c : Close} {o : OrderRow} (idIs : o.id = c.id) : c.sees (c.row o) = true := by
  unfold Close.sees Close.row Close.answerer
  cases looks : c.looks <;> simp [idIs]

theorem Close.sees_id {c : Close} {o : OrderRow} (sees : c.sees o = true) : o.id = c.id := by
  simp only [Close.sees, Bool.and_eq_true, decide_eq_true_eq] at sees
  exact sees.1.1.1

theorem Close.sees_closed {c : Close} {o : OrderRow} (sees : c.sees o = true) :
    o.state.isOpen = false := by
  simp only [Close.sees, Bool.and_eq_true, decide_eq_true_eq] at sees
  rw [sees.1.1.2]
  exact c.final.not_open

/-- A close that takes no row leaves everything as it was. -/
theorem Close.run_none {c : Close} {db : Db} (unseen : c.Unseen db)
    (none : ∀ o ∈ db.orders, c.takes db o = false) : c.run db = db := by
  have same : db.orders.map (fun o => if c.takes db o then c.row o else o) = db.orders := by
    conv_rhs => rw [← List.map_id db.orders]
    apply List.map_congr_left
    intro o mem
    rw [none o mem]
    rfl
  have still : (db.updateOrders fun o => if c.takes db o then c.row o else o) = db := by
    unfold Db.updateOrders
    rw [same]
  unfold Close.run
  dsimp only
  rw [still, if_neg]
  rw [List.any_eq_true]
  rintro ⟨o, mem, sees⟩
  rw [unseen o mem] at sees
  cases sees

theorem Close.run_some {c : Close} {db : Db} {o : OrderRow} (mem : o ∈ db.orders)
    (takes : c.takes db o = true) :
    c.run db = (db.updateOrders fun o => if c.takes db o then c.row o else o).log c.line := by
  unfold Close.run
  dsimp only
  rw [if_pos]
  rw [List.any_eq_true]
  refine ⟨c.row o, List.mem_map.mpr ⟨o, mem, by rw [if_pos takes]⟩, ?_⟩
  exact Close.sees_row (Close.takes_open takes).1

theorem Close.run_told {c : Close} {db : Db} (told : Told db) (names : c.Names db)
    (unseen : c.Unseen db) : Told (c.run db) := by
  by_cases won : ∃ o ∈ db.orders, c.takes db o = true
  · obtain ⟨o, mem, takes⟩ := won
    obtain ⟨idIs, isOpen⟩ := Close.takes_open takes
    rw [Close.run_some mem takes]
    have line : c.line = finalLineOf o c.final.state c.detail := by
      obtain ⟨p, memP, idP, workerP, kindP⟩ := names
      obtain rfl : o = p := told.eq_of_id mem memP (idIs.trans idP.symm)
      simp [Close.line, finalLineOf, idIs, workerP, kindP]
    refine ⟨?_, ?_, ?_⟩
    · have ids : (db.orders.map fun o => if c.takes db o then c.row o else o).map (·.id) =
          db.orders.map (·.id) := by
        rw [List.map_map]
        apply List.map_congr_left
        intro r _
        simp only [Function.comp_apply]
        split <;> rfl
      show ((db.orders.map fun o => if c.takes db o then c.row o else o).map (·.id)).Nodup
      rw [ids]
      exact told.nodup
    · intro l memL
      rcases List.mem_append.mp memL with old | new
      · obtain ⟨r, memR, idR⟩ := told.known l old
        refine ⟨_, List.mem_map.mpr ⟨r, memR, rfl⟩, ?_⟩
        rw [← idR]
        split <;> rfl
      · rw [List.mem_singleton.mp new]
        refine ⟨_, List.mem_map.mpr ⟨o, mem, rfl⟩, ?_⟩
        rw [if_pos takes]
        exact idIs
    · intro r' memR'
      obtain ⟨r, memR, rfl⟩ := List.mem_map.mp memR'
      show ToldRow (db.events ++ [c.line]) _
      by_cases taken : c.takes db r = true
      · obtain rfl : r = o := told.eq_of_id memR mem ((Close.takes_open taken).1.trans idIs.symm)
        rw [if_pos taken, line]
        exact (told.rows r memR).close isOpen c.final.not_open rfl rfl rfl rfl rfl
      · rw [if_neg taken]
        apply (told.rows r memR).other
        intro same
        obtain rfl : r = o := told.eq_of_id memR mem (same.symm.trans idIs.symm)
        exact taken takes
  · rw [Close.run_none unseen]
    · exact told
    · intro o mem
      by_contra takes
      exact won ⟨o, mem, by simpa using takes⟩

theorem Close.run_grows (c : Close) (db : Db) : Grows db (c.run db) := by
  have orders : (c.run db).orders = db.orders.map fun o => if c.takes db o then c.row o else o := by
    unfold Close.run
    dsimp only
    split <;> rfl
  intro o mem
  refine ⟨if c.takes db o then c.row o else o, ?_, ?_⟩
  · rw [orders]
    exact List.mem_map.mpr ⟨o, mem, rfl⟩
  · by_cases takes : c.takes db o = true
    · rw [if_pos takes]
      refine ⟨rfl, rfl, rfl, ?_⟩
      intro closed
      rw [(Close.takes_open takes).2] at closed
      cases closed
    · rw [if_neg takes]
      exact ⟨rfl, rfl, rfl, fun _ => rfl⟩

/-- A close does not bring about what the line of another order's close looks for. -/
theorem Close.run_unseen {c d : Close} {db : Db} (unseen : d.Unseen db) (apart : d.id ≠ c.id) :
    d.Unseen (c.run db) := by
  intro o' mem
  have mem' : o' ∈ db.orders.map fun o => if c.takes db o then c.row o else o := by
    unfold Close.run at mem
    dsimp only at mem
    split at mem <;> exact mem
  obtain ⟨o, memO, rfl⟩ := List.mem_map.mp mem'
  by_cases takes : c.takes db o = true
  · rw [if_pos takes]
    by_contra sees
    have idIs : (c.row o).id = d.id := Close.sees_id (by simpa using sees)
    exact apart (idIs.symm.trans (Close.takes_open takes).1)
  · rw [if_neg takes]
    exact unseen o memO

/-! ## A batch -/

/-- A write that keeps every row's name, and touches only rows that are open and stay so. -/
theorem updateOrders_open {db : Db} {f : OrderRow → OrderRow} (told : Told db)
    (named : ∀ o, (f o).id = o.id ∧ (f o).worker = o.worker ∧ (f o).kind = o.kind)
    (open_ : ∀ o, f o = o ∨ (o.state.isOpen = true ∧ (f o).state.isOpen = true)) :
    Told (db.updateOrders f) ∧ Grows db (db.updateOrders f) := by
  constructor
  · refine ⟨?_, ?_, ?_⟩
    · have ids : (db.orders.map f).map (·.id) = db.orders.map (·.id) := by
        rw [List.map_map]
        exact List.map_congr_left fun o _ => (named o).1
      show ((db.orders.map f).map (·.id)).Nodup
      rw [ids]
      exact told.nodup
    · intro l mem
      obtain ⟨o, memO, idIs⟩ := told.known l mem
      exact ⟨f o, List.mem_map.mpr ⟨o, memO, rfl⟩, (named o).1.trans idIs⟩
    · intro o' mem
      obtain ⟨o, memO, rfl⟩ := List.mem_map.mp mem
      rcases open_ o with same | ⟨isOpen, stays⟩
      · rw [same]
        exact told.rows o memO
      · exact (told.rows o memO).stillOpen (named o).1 isOpen stays
  · intro o mem
    refine ⟨f o, List.mem_map.mpr ⟨o, mem, rfl⟩, (named o).1, (named o).2.1, (named o).2.2, ?_⟩
    intro closed
    rcases open_ o with same | ⟨isOpen, _⟩
    · exact same
    · rw [isOpen] at closed
      cases closed

theorem deliver_told {db : Db} (told : Told db) (id : String) (now : Int)
    (process baseline : Option String) :
    Told ((BatchStep.deliver id now process baseline).run db) ∧
      Grows db ((BatchStep.deliver id now process baseline).run db) := by
  apply updateOrders_open told
  · intro o
    split <;> exact ⟨rfl, rfl, rfl⟩
  · intro o
    split
    · rename_i found
      simp only [Bool.and_eq_true, decide_eq_true_eq] at found
      exact .inr ⟨by rw [found.2]; rfl, rfl⟩
    · exact .inl rfl

theorem deliver_unseen {c : Close} {db : Db} (unseen : c.Unseen db) (id : String) (now : Int)
    (process baseline : Option String) :
    c.Unseen ((BatchStep.deliver id now process baseline).run db) := by
  intro o' mem
  obtain ⟨o, memO, rfl⟩ := List.mem_map.mp mem
  split
  · by_contra sees
    have closed := @Close.sees_closed c _ (by simpa using sees)
    cases closed
  · exact unseen o memO

/-- A batch whose closes name orders it knows, one close an order, each unseen before it. -/
theorem runBatch_told (steps : List BatchStep) {db : Db} (told : Told db)
    (names : ∀ c ∈ closesOf steps, c.Names db) (once : ((closesOf steps).map (·.id)).Nodup)
    (unseen : ∀ c ∈ closesOf steps, c.Unseen db) :
    Told (runBatch steps db) ∧ Grows db (runBatch steps db) := by
  induction steps generalizing db with
  | nil => exact ⟨told, Grows.refl db⟩
  | cons step rest ih =>
      have goOn : ∀ {next : Db}, Told next → Grows db next →
          (∀ c ∈ closesOf rest, c.Unseen next) → (∀ c ∈ closesOf rest, c.Names db) →
          ((closesOf rest).map (·.id)).Nodup →
          Told (runBatch rest next) ∧ Grows db (runBatch rest next) := by
        intro next toldNext grows unseenNext namesRest onceRest
        obtain ⟨kept, more⟩ :=
          ih toldNext (fun c mem => (namesRest c mem).grows grows) onceRest unseenNext
        exact ⟨kept, grows.trans more⟩
      cases step with
      | close c =>
          obtain ⟨fresh, onceRest⟩ := List.nodup_cons.mp once
          refine goOn (Close.run_told told (names c List.mem_cons_self) (unseen c List.mem_cons_self))
            (c.run_grows db) ?_ (fun d mem => names d (List.mem_cons_of_mem _ mem)) onceRest
          intro d mem
          refine Close.run_unseen (unseen d (List.mem_cons_of_mem _ mem)) ?_
          intro same
          exact fresh (List.mem_map.mpr ⟨d, mem, same⟩)
      | requeue task owner error order =>
          exact goOn ⟨told.nodup, told.known, told.rows⟩ (Grows.refl db) unseen names once
      | deliver id now process baseline =>
          obtain ⟨toldNext, grows⟩ := deliver_told told id now process baseline
          exact goOn toldNext grows (fun c mem => deliver_unseen (unseen c mem) id now process baseline)
            names once

/-! ## An issue -/

theorem filter_id {orders : List OrderRow} (nodup : (orders.map (·.id)).Nodup) {o : OrderRow}
    (mem : o ∈ orders) : orders.filter (fun r => r.id = o.id) = [o] := by
  induction orders with
  | nil => cases mem
  | cons r rest ih =>
      obtain ⟨fresh, nodupRest⟩ := List.nodup_cons.mp nodup
      rcases List.mem_cons.mp mem with rfl | inRest
      · rw [List.filter_cons_of_pos (by simp), List.cons.injEq]
        refine ⟨rfl, List.filter_eq_nil_iff.mpr ?_⟩
        intro p memP same
        exact fresh (List.mem_map.mpr ⟨p, memP, of_decide_eq_true same⟩)
      · have other : r.id ≠ o.id := fun same => fresh (List.mem_map.mpr ⟨o, inRest, same.symm⟩)
        rw [List.filter_cons_of_neg (by simpa using other)]
        exact ih nodupRest inRest

/-- The final lines of the rows a statement is about to close. -/
def closingLines (orders : List OrderRow) (which : OrderRow → Bool) (detail : String) : List Line :=
  (orders.filter which).map fun o => finalLineOf o .done detail

theorem closingLines_of {orders : List OrderRow} (nodup : (orders.map (·.id)).Nodup)
    (which : OrderRow → Bool) (detail : String) {o : OrderRow} (mem : o ∈ orders) :
    (closingLines orders which detail).filter (fun l => l.order = o.id && !l.state.isOpen) =
      if which o then [finalLineOf o .done detail] else [] := by
  have pulled : (closingLines orders which detail).filter (fun l => l.order = o.id && !l.state.isOpen) =
      ((orders.filter fun r => r.id = o.id).filter which).map fun r => finalLineOf r .done detail := by
    unfold closingLines
    rw [List.filter_map, List.filter_filter, List.filter_filter]
    congr 2
    funext r
    show (decide (r.id = o.id) && !OrderState.done.isOpen && which r) = (which r && decide (r.id = o.id))
    cases which r <;> simp [OrderState.isOpen]
  rw [pulled, filter_id nodup mem, List.filter_singleton]
  cases which o <;> rfl

/-- Rows closed as done, their lines written while they were open. -/
def closeWhere (db : Db) (which : OrderRow → Bool) (now : Int) (detail : String) : Db :=
  { db with
    orders := db.orders.map fun o => if which o then o.closedBy .done .pool now detail else o
    events := db.events ++ closingLines db.orders which detail }

theorem closeWhere_told {db : Db} (told : Told db) {which : OrderRow → Bool}
    (open_ : ∀ o, which o = true → o.state.isOpen = true) (now : Int) (detail : String) :
    Told (closeWhere db which now detail) ∧ Grows db (closeWhere db which now detail) := by
  have finals : ∀ o ∈ db.orders, finalLines (closeWhere db which now detail).events o.id =
      finalLines db.events o.id ++ if which o then [finalLineOf o .done detail] else [] := by
    intro o mem
    rw [← closingLines_of told.nodup which detail mem]
    exact List.filter_append _ _
  have issues : ∀ id, issueLines (closeWhere db which now detail).events id =
      issueLines db.events id := by
    intro id
    have noneOpen : (closingLines db.orders which detail).filter
        (fun l => l.order = id && l.state.isOpen) = [] := by
      rw [List.filter_eq_nil_iff]
      intro l mem
      obtain ⟨o, _, rfl⟩ := List.mem_map.mp mem
      simp [finalLineOf, OrderState.isOpen]
    show (db.events ++ _).filter _ = _
    rw [List.filter_append, noneOpen, List.append_nil]
    rfl
  constructor
  · refine ⟨?_, ?_, ?_⟩
    · have ids : (closeWhere db which now detail).orders.map (·.id) = db.orders.map (·.id) := by
        show (db.orders.map _).map _ = _
        rw [List.map_map]
        apply List.map_congr_left
        intro o _
        simp only [Function.comp_apply]
        split <;> rfl
      rw [ids]
      exact told.nodup
    · intro l mem
      have known : ∃ o ∈ db.orders, o.id = l.order := by
        rcases List.mem_append.mp mem with old | new
        · exact told.known l old
        · obtain ⟨o, memO, rfl⟩ := List.mem_map.mp new
          exact ⟨o, (List.mem_filter.mp memO).1, rfl⟩
      obtain ⟨o, memO, idIs⟩ := known
      refine ⟨_, List.mem_map.mpr ⟨o, memO, rfl⟩, ?_⟩
      rw [← idIs]
      split <;> rfl
    · intro o' mem
      obtain ⟨o, memO, rfl⟩ := List.mem_map.mp mem
      have row := told.rows o memO
      by_cases closes : which o = true
      · have isOpen := open_ o closes
        rw [if_pos closes]
        refine ⟨by rw [issues]; exact row.issue, (nomatch ·), ?_⟩
        intro _
        refine ⟨detail, rfl, ?_⟩
        show finalLines _ o.id = _
        rw [finals o memO, row.waiting isOpen, if_pos closes]
        rfl
      · have same : finalLines (closeWhere db which now detail).events o.id =
            finalLines db.events o.id := by
          rw [finals o memO, if_neg closes, List.append_nil]
        rw [if_neg closes]
        exact ⟨by rw [issues]; exact row.issue, by rw [same]; exact row.waiting,
          by rw [same]; exact row.closed⟩
  · intro o mem
    refine ⟨_, List.mem_map.mpr ⟨o, mem, rfl⟩, ?_⟩
    by_cases closes : which o = true
    · rw [if_pos closes]
      refine ⟨rfl, rfl, rfl, ?_⟩
      intro closed
      rw [open_ o closes] at closed
      cases closed
    · rw [if_neg closes]
      exact ⟨rfl, rfl, rfl, fun _ => rfl⟩

/-- A new order with its issue line. -/
def withNew (db : Db) (new : OrderRow) (line : Line) : Db :=
  { db with orders := db.orders ++ [new], events := db.events ++ [line] }

theorem withNew_told {db : Db} (told : Told db) {new : OrderRow} {line : Line}
    (fresh : ∀ o ∈ db.orders, o.id ≠ new.id) (about : line.order = new.id)
    (lineOpen : line.state.isOpen = true) (isOpen : new.state.isOpen = true) :
    Told (withNew db new line) ∧ Grows db (withNew db new line) := by
  have unheard : ∀ l ∈ db.events, l.order ≠ new.id := by
    intro l mem same
    obtain ⟨o, memO, idIs⟩ := told.known l mem
    exact fresh o memO (idIs.trans same)
  constructor
  · refine ⟨?_, ?_, ?_⟩
    · show ((db.orders ++ [new]).map (·.id)).Nodup
      rw [List.map_append, List.nodup_append]
      refine ⟨told.nodup, List.nodup_singleton _, ?_⟩
      intro id mem other isNew
      obtain ⟨o, memO, rfl⟩ := List.mem_map.mp mem
      rw [List.mem_singleton.mp isNew]
      exact fresh o memO
    · intro l mem
      rcases List.mem_append.mp mem with old | isLine
      · obtain ⟨o, memO, idIs⟩ := told.known l old
        exact ⟨o, List.mem_append_left _ memO, idIs⟩
      · rw [List.mem_singleton.mp isLine]
        exact ⟨new, List.mem_append_right _ (List.mem_singleton_self new), about.symm⟩
    · intro o mem
      show ToldRow (db.events ++ [line]) o
      rcases List.mem_append.mp mem with old | isNew
      · exact (told.rows o old).other (by rw [about]; exact fun same => fresh o old same.symm)
      · rw [List.mem_singleton.mp isNew]
        refine ⟨?_, ?_, ?_⟩
        · have none : issueLines db.events new.id = [] := by
            rw [issueLines, List.filter_eq_nil_iff]
            intro l memL
            simp [unheard l memL]
          rw [issueLines_append, none, if_pos ⟨about, lineOpen⟩]
          rfl
        · intro _
          have none : finalLines db.events new.id = [] := by
            rw [finalLines, List.filter_eq_nil_iff]
            intro l memL
            simp [unheard l memL]
          rw [finalLines_append, none, if_neg]
          · rfl
          · rintro ⟨_, closed⟩
            rw [lineOpen] at closed
            cases closed
        · intro closed
          rw [isOpen] at closed
          cases closed
  · intro o mem
    exact ⟨o, List.mem_append_left _ mem, rfl, rfl, rfl, fun _ => rfl⟩

theorem Told.of_eq {db db' : Db} (told : Told db) (orders : db'.orders = db.orders)
    (events : db'.events = db.events) : Told db' :=
  ⟨by rw [orders]; exact told.nodup, by rw [orders, events]; exact told.known,
    by rw [orders, events]; exact told.rows⟩

theorem Grows.of_eq {db next db' : Db} (grows : Grows db next) (orders : db'.orders = next.orders) :
    Grows db db' := by
  intro o mem
  rw [orders]
  exact grows o mem

theorem writes_orders (id : String) (a : IssueAsk) (db : Db) :
    (writeFence id a (writeDrain a (writeAuto a db))).orders = db.orders ∧
      (writeFence id a (writeDrain a (writeAuto a db))).events = db.events := by
  have auto : (writeAuto a db).orders = db.orders ∧ (writeAuto a db).events = db.events := by
    unfold writeAuto
    split <;> exact ⟨rfl, rfl⟩
  have drain : (writeDrain a (writeAuto a db)).orders = db.orders ∧
      (writeDrain a (writeAuto a db)).events = db.events := by
    unfold writeDrain
    split <;> exact auto
  unfold writeFence
  split <;> exact drain

theorem newOrder_open (id : String) (a : IssueAsk) : (newOrder id a).state.isOpen = true := by
  show (if a.deliverTo.isSome then OrderState.delivered else .pending).isOpen = true
  split <;> rfl

theorem issueLine_open (id : String) (a : IssueAsk) : (issueLine id a).state.isOpen = true := by
  show (if a.deliverTo.isSome then OrderState.delivered else .pending).isOpen = true
  split <;> rfl

theorem waitingDrain_open {worker : String} {o : OrderRow} (is : waitingDrain worker o = true) :
    o.state.isOpen = true := by
  simp only [waitingDrain, Bool.and_eq_true] at is
  exact is.1.2

/-- The resume's own row while it waits for its close. -/
def waitingResume (id : String) (o : OrderRow) : Bool := o.id = id && o.state = .pending

/-- A resume is its drain's close, the new order with its line, and the new order's close. -/
def resumedDb (id : String) (a : IssueAsk) (r : Resumed) (db : Db) : Db :=
  closeWhere (withNew (closeWhere db (waitingDrain a.worker) a.now r.drain) (newOrder id a)
    (issueLine id a)) (waitingResume id) a.now r.detail

theorem resumedDb_told {id : String} {a : IssueAsk} {r : Resumed} {db : Db} (told : Told db)
    (fresh : ∀ o ∈ db.orders, o.id ≠ id) :
    Told (resumedDb id a r db) ∧ Grows db (resumedDb id a r db) := by
  obtain ⟨toldDrain, growsDrain⟩ :=
    closeWhere_told told (fun _ => @waitingDrain_open a.worker _) a.now r.drain
  have freshDrain : ∀ o ∈ (closeWhere db (waitingDrain a.worker) a.now r.drain).orders,
      o.id ≠ (newOrder id a).id := by
    intro o' mem
    obtain ⟨o, memO, rfl⟩ := List.mem_map.mp mem
    split <;> exact fresh o memO
  obtain ⟨toldNew, growsNew⟩ := @withNew_told _ toldDrain _ (issueLine id a) freshDrain rfl
    (issueLine_open id a) (newOrder_open id a)
  have pending : ∀ o, waitingResume id o = true → o.state.isOpen = true := by
    intro o is
    simp only [waitingResume, Bool.and_eq_true, decide_eq_true_eq] at is
    rw [is.2]
    rfl
  obtain ⟨toldOwn, growsOwn⟩ := closeWhere_told toldNew pending a.now r.detail
  exact ⟨toldOwn, (growsDrain.trans growsNew).trans growsOwn⟩

theorem resumedOf_kind {a : IssueAsk} {r : Resumed} (is : resumedOf a = some r) : a.kind = .resume := by
  unfold resumedOf at is
  split at is
  · assumption
  · cases is

/-- The batch's last two statements: the issue line, and the resume's own line if it closed. -/
theorem writeLines_resumed {id : String} {a : IssueAsk} {r : Resumed} (is : resumedOf a = some r)
    {db : Db} {others : List OrderRow} (apart : ∀ o ∈ others, o.id ≠ id)
    (orders : db.orders = (others ++ [newOrder id a]).map fun o =>
      if waitingResume id o then o.closedBy .done .pool a.now r.detail else o) :
    (writeLines id a db).orders = db.orders ∧
      (writeLines id a db).events = db.events ++ [issueLine id a] ++
        closingLines (others ++ [newOrder id a]) (waitingResume id) r.detail := by
  have none : ∀ o ∈ others, waitingResume id o = false := by
    intro o mem
    simp [waitingResume, apart o mem]
  have rest : others.filter (waitingResume id) = [] := by
    rw [List.filter_eq_nil_iff]
    intro o mem
    simp [none o mem]
  have kept : others.map (fun o => if waitingResume id o then o.closedBy .done .pool a.now r.detail
      else o) = others := by
    conv_rhs => rw [← List.map_id others]
    apply List.map_congr_left
    intro o mem
    rw [none o mem]
    rfl
  have quiet : (others.any fun o => o.id = id && o.state = .done && o.answeredAt = some a.now) =
      false := by
    rw [List.any_eq_false]
    intro o mem
    simp [apart o mem]
  have finalLine : finalLineOf (newOrder id a) .done r.detail =
      ⟨id, .done, .ok, finalSummary a.worker .resume .done r.detail id⟩ := by
    rw [← resumedOf_kind is]
    rfl
  unfold writeLines
  rw [is]
  dsimp only
  by_cases waits : waitingResume id (newOrder id a) = true
  · have closes : ((db.log (issueLine id a)).orders.any fun o =>
        o.id = id && o.state = .done && o.answeredAt = some a.now) = true := by
      show (db.orders.any _) = true
      rw [orders, List.map_append, List.any_append, Bool.or_eq_true]
      right
      rw [List.map_singleton, if_pos waits]
      simp [OrderRow.closedBy, newOrder]
    have lines : closingLines (others ++ [newOrder id a]) (waitingResume id) r.detail =
        [finalLineOf (newOrder id a) .done r.detail] := by
      rw [closingLines, List.filter_append, rest, List.nil_append, List.filter_cons_of_pos waits]
      rfl
    rw [if_pos closes, lines, finalLine]
    exact ⟨rfl, rfl⟩
  · have stays : ((db.log (issueLine id a)).orders.any fun o =>
        o.id = id && o.state = .done && o.answeredAt = some a.now) = false := by
      have isOpen := newOrder_open id a
      show (db.orders.any _) = false
      rw [orders, List.map_append, kept, List.any_append, quiet, Bool.false_or, List.map_singleton,
        if_neg waits, List.any_eq_false]
      intro o mem
      rw [List.mem_singleton.mp mem]
      intro both
      simp only [Bool.and_eq_true, decide_eq_true_eq] at both
      rw [both.1.2] at isOpen
      cases isOpen
    have lines : closingLines (others ++ [newOrder id a]) (waitingResume id) r.detail = [] := by
      rw [closingLines, List.filter_append, rest, List.nil_append, List.filter_cons_of_neg waits]
      rfl
    rw [if_neg (by rw [stays]; exact Bool.false_ne_true), lines, List.append_nil]
    exact ⟨rfl, rfl⟩

theorem afterInsert_resumed {id : String} {a : IssueAsk} {r : Resumed} (is : resumedOf a = some r)
    {db : Db} (fresh : ∀ o ∈ db.orders, o.id ≠ id) :
    (afterInsert id a { db with orders := db.orders ++ [newOrder id a] }).orders =
        (resumedDb id a r db).orders ∧
      (afterInsert id a { db with orders := db.orders ++ [newOrder id a] }).events =
        (resumedDb id a r db).events := by
  obtain ⟨orders, events⟩ := writes_orders id a { db with orders := db.orders ++ [newOrder id a] }
  have notDrain : waitingDrain a.worker (newOrder id a) = false := by
    show (decide _ && decide (a.kind = .drain) && _ && _) = false
    rw [resumedOf_kind is]
    simp
  unfold afterInsert
  dsimp only
  rw [is]
  dsimp only
  generalize writeFence id a (writeDrain a (writeAuto a _)) = written at orders events ⊢
  have resumed : (writeResume id a r written).orders =
      ((closeWhere db (waitingDrain a.worker) a.now r.drain).orders ++ [newOrder id a]).map fun o =>
        if waitingResume id o then o.closedBy .done .pool a.now r.detail else o := by
    show (written.orders.map _).map _ = _
    rw [orders, List.map_append, List.map_singleton, notDrain]
    rfl
  have drained : (writeResume id a r written).events =
      (closeWhere db (waitingDrain a.worker) a.now r.drain).events := by
    show written.events ++ (written.orders.filter (waitingDrain a.worker)).map _ = _
    rw [orders, events, List.filter_append, List.filter_cons_of_neg (by simp [notDrain])]
    simp [closeWhere, closingLines]
  have apart : ∀ o ∈ (closeWhere db (waitingDrain a.worker) a.now r.drain).orders, o.id ≠ id := by
    intro o' mem
    obtain ⟨o, memO, rfl⟩ := List.mem_map.mp mem
    split <;> exact fresh o memO
  obtain ⟨sameOrders, sameEvents⟩ := writeLines_resumed is apart resumed
  exact ⟨sameOrders.trans resumed, by rw [sameEvents, drained]; rfl⟩

theorem issueOrder_told {id : String} {a : IssueAsk} {db db' : Db} (told : Told db)
    (ok : issueOrder id a db = .ok db') : Told db' ∧ Grows db db' := by
  obtain ⟨_, fresh, rfl⟩ := issueOrder_ok ok
  cases is : resumedOf a with
  | some r =>
      obtain ⟨orders, events⟩ := afterInsert_resumed is fresh
      obtain ⟨toldResumed, grows⟩ := @resumedDb_told id a r db told fresh
      exact ⟨toldResumed.of_eq orders events, grows.of_eq orders⟩
  | none =>
      obtain ⟨orders, events⟩ := writes_orders id a { db with orders := db.orders ++ [newOrder id a] }
      obtain ⟨toldNew, grows⟩ := @withNew_told db told (newOrder id a) (issueLine id a) fresh rfl
        (issueLine_open id a) (newOrder_open id a)
      have sameOrders : (afterInsert id a { db with orders := db.orders ++ [newOrder id a] }).orders =
          (withNew db (newOrder id a) (issueLine id a)).orders := by
        unfold afterInsert writeLines
        rw [is]
        exact orders
      have sameEvents : (afterInsert id a { db with orders := db.orders ++ [newOrder id a] }).events =
          (withNew db (newOrder id a) (issueLine id a)).events := by
        unfold afterInsert writeLines
        rw [is]
        show (writeFence id a _).events ++ _ = _
        rw [events]
        rfl
      exact ⟨toldNew.of_eq sameOrders sameEvents, grows.of_eq sameOrders⟩

end OmarchyPool.WorkerOrders
