/-
# OmarchyPool.Lib.CompareAndSet -- reports that move one row by compare-and-set

Any number of calls move one row at once.  A call reads the row, works out the row its report leads
to, and writes that if the row still has the key it read; if not it reads again, `tries` times at
most.  A `Cell` is the row and the calls in flight, an `Action` one call's next statement, so a list of
actions is any interleaving.

* `run_reports`: every report that came is applied once, given up or still in flight;
* `run_serial`: the row is, as far as `sim` tells, what the applied reports lead to one after
  another, in the order they were applied in;
* `run_givenUp`: a report is given up only after `tries` writes of others while it was tried.

The key need not say all of the row.  `Serial` is what it must say: rows with one key lead to rows
`sim` does not tell apart.
-/
import Mathlib.Data.List.Induction
import Mathlib.Data.List.Perm.Basic
import Mathlib.Tactic.Common

namespace OmarchyPool.Lib.CompareAndSet

set_option autoImplicit false
set_option linter.unusedSectionVars false

/-- What a call holds between its read and its write: the row it read, the one it wants, and when it
worked that out. -/
structure Read (σ τ : Type) where
  row : σ
  next : σ
  time : τ

/-- A call in flight.  `begun` and `seen` count the writes made before it began and before its last
read. -/
structure Call (σ ι τ : Type) where
  report : ι
  lost : Nat
  read : Option (Read σ τ)
  begun : Nat
  seen : Nat

structure Cell (σ ι τ : Type) where
  row : σ
  calls : List (Call σ ι τ)
  applied : List (ι × τ)
  givenUp : List (Call σ ι τ)
  writes : Nat

inductive Action (ι τ : Type) where
  | start (report : ι)
  | turn (i : Nat) (now : τ)

section Calls

variable {σ κ ι τ : Type} [DecidableEq κ] (key : σ → κ) (move : ι → τ → σ → Option σ) (tries : Nat)

def Cell.start (row : σ) : Cell σ ι τ := ⟨row, [], [], [], 0⟩

/-- A call reads the row; a report that changes nothing is done with that. -/
def Cell.load (s : Cell σ ι τ) (i : Nat) (c : Call σ ι τ) (now : τ) : Cell σ ι τ :=
  match move c.report now s.row with
  | none => { s with calls := s.calls.eraseIdx i, applied := s.applied ++ [(c.report, now)] }
  | some next => { s with calls := s.calls.set i { c with read := some ⟨s.row, next, now⟩, seen := s.writes } }

/-- A call writes, if the row still has the key it read. -/
def Cell.store (s : Cell σ ι τ) (i : Nat) (c : Call σ ι τ) (r : Read σ τ) : Cell σ ι τ :=
  if key r.row = key s.row then
    { s with
      row := r.next, calls := s.calls.eraseIdx i, applied := s.applied ++ [(c.report, r.time)]
      writes := s.writes + 1 }
  else if c.lost + 1 < tries then
    { s with calls := s.calls.set i { c with lost := c.lost + 1, read := none, seen := s.writes } }
  else
    { s with
      calls := s.calls.eraseIdx i
      givenUp := s.givenUp ++ [{ c with lost := c.lost + 1, seen := s.writes }] }

def Cell.turn (s : Cell σ ι τ) (i : Nat) (now : τ) : Cell σ ι τ :=
  match s.calls[i]? with
  | none => s
  | some c =>
    match c.read with
    | none => s.load move i c now
    | some r => s.store key tries i c r

def Cell.step (s : Cell σ ι τ) : Action ι τ → Cell σ ι τ
  | .start report => { s with calls := s.calls ++ [⟨report, 0, none, s.writes, s.writes⟩] }
  | .turn i now => s.turn key move tries i now

def run (row : σ) (actions : List (Action ι τ)) : Cell σ ι τ :=
  actions.foldl (Cell.step key move tries) (Cell.start row)

/-- The reports that came. -/
def came (actions : List (Action ι τ)) : List ι :=
  actions.filterMap fun
    | .start report => some report
    | .turn _ _ => none

/-- One report applied with nothing beside it. -/
def after (row : σ) (e : ι × τ) : σ := (move e.1 e.2 row).getD row

def serial (row : σ) (applied : List (ι × τ)) : σ := applied.foldl (after move) row

theorem serial_append (row : σ) (applied : List (ι × τ)) (e : ι × τ) :
    serial move row (applied ++ [e]) = after move (serial move row applied) e := by
  simp only [serial, List.foldl_append, List.foldl_cons, List.foldl_nil]

/-- The run of one action more. -/
theorem run_append (row : σ) (actions : List (Action ι τ)) (a : Action ι τ) :
    run key move tries row (actions ++ [a]) = (run key move tries row actions).step key move tries a := by
  simp only [run, List.foldl_append, List.foldl_cons, List.foldl_nil]

variable {key move tries}

/-! ## What one turn does -/

/-- All a turn can do: nothing, or one of the five ends of a call's statement. -/
inductive Turned (key : σ → κ) (move : ι → τ → σ → Option σ) (tries : Nat) (s : Cell σ ι τ) :
    Cell σ ι τ → Prop where
  | nothing : Turned key move tries s s
  | still (i : Nat) (c : Call σ ι τ) (now : τ) (here : s.calls[i]? = some c)
      (same : move c.report now s.row = none) :
      Turned key move tries s
        { s with calls := s.calls.eraseIdx i, applied := s.applied ++ [(c.report, now)] }
  | reads (i : Nat) (c : Call σ ι τ) (now : τ) (next : σ) (here : s.calls[i]? = some c)
      (unread : c.read = none) (leads : move c.report now s.row = some next) :
      Turned key move tries s
        { s with calls := s.calls.set i { c with read := some ⟨s.row, next, now⟩, seen := s.writes } }
  | wins (i : Nat) (c : Call σ ι τ) (r : Read σ τ) (here : s.calls[i]? = some c)
      (held : c.read = some r) (same : key r.row = key s.row) :
      Turned key move tries s
        { s with
          row := r.next, calls := s.calls.eraseIdx i, applied := s.applied ++ [(c.report, r.time)]
          writes := s.writes + 1 }
  | loses (i : Nat) (c : Call σ ι τ) (r : Read σ τ) (here : s.calls[i]? = some c)
      (held : c.read = some r) (moved : key r.row ≠ key s.row) (again : c.lost + 1 < tries) :
      Turned key move tries s
        { s with calls := s.calls.set i { c with lost := c.lost + 1, read := none, seen := s.writes } }
  | givesUp (i : Nat) (c : Call σ ι τ) (r : Read σ τ) (here : s.calls[i]? = some c)
      (held : c.read = some r) (moved : key r.row ≠ key s.row) (spent : tries ≤ c.lost + 1) :
      Turned key move tries s
        { s with
          calls := s.calls.eraseIdx i
          givenUp := s.givenUp ++ [{ c with lost := c.lost + 1, seen := s.writes }] }

theorem turn_cases (s : Cell σ ι τ) (i : Nat) (now : τ) :
    Turned key move tries s (s.turn key move tries i now) := by
  unfold Cell.turn
  split
  · exact .nothing
  · rename_i c here
    split
    · rename_i unread
      unfold Cell.load
      split
      · rename_i same
        exact .still i c now here same
      · rename_i next leads
        exact .reads i c now next here unread leads
    · rename_i r held
      unfold Cell.store
      split_ifs with same again
      · exact .wins i c r here held same
      · exact .loses i c r here held same again
      · exact .givesUp i c r here held same (Nat.le_of_not_lt again)

/-! ## Every report once -/

theorem perm_eraseIdx {α : Type} {l : List α} {i : Nat} {a : α} (here : l[i]? = some a) :
    List.Perm l (a :: l.eraseIdx i) := by
  obtain ⟨inside, rfl⟩ := List.getElem?_eq_some_iff.mp here
  exact (List.getElem_cons_eraseIdx_perm inside).symm

theorem map_set_same {α β : Type} (f : α → β) {l : List α} {i : Nat} {a b : α} (here : l[i]? = some a)
    (same : f b = f a) : (l.set i b).map f = l.map f := by
  obtain ⟨inside, rfl⟩ := List.getElem?_eq_some_iff.mp here
  rw [List.map_set, same, ← List.getElem_map f (h := by simpa using inside), List.set_getElem_self]

/-- The reports of a cell: applied, given up, in flight. -/
def Cell.reports (s : Cell σ ι τ) : List ι :=
  s.applied.map (·.1) ++ s.givenUp.map (·.report) ++ s.calls.map (·.report)

theorem Turned.reports {s t : Cell σ ι τ} (turned : Turned key move tries s t) :
    t.reports.Perm s.reports := by
  -- a call that leaves the flight is the one its report joins the list of
  have leaves : ∀ {i : Nat} {c : Call σ ι τ}, s.calls[i]? = some c →
      (s.calls.map (·.report)).Perm (c.report :: (s.calls.eraseIdx i).map (·.report)) :=
    fun here => (perm_eraseIdx here).map _
  have stays : ∀ {i : Nat} {c d : Call σ ι τ}, s.calls[i]? = some c → d.report = c.report →
      (s.calls.set i d).map (·.report) = s.calls.map (·.report) :=
    fun here same => map_set_same _ here same
  cases turned with
  | nothing => exact .refl _
  | still i c now here _ =>
      simp only [Cell.reports, List.map_append, List.map_cons, List.map_nil]
      refine .trans ?_ (List.Perm.append_left _ (leaves here).symm)
      simp only [List.append_assoc]
      refine List.Perm.append_left _ ?_
      exact (List.perm_append_comm_assoc _ _ _)
  | reads i c now next here _ _ =>
      simp only [Cell.reports]
      refine List.Perm.append_left _ (.of_eq ?_)
      exact stays here rfl
  | wins i c r here _ _ =>
      simp only [Cell.reports, List.map_append, List.map_cons, List.map_nil]
      refine .trans ?_ (List.Perm.append_left _ (leaves here).symm)
      simp only [List.append_assoc]
      refine List.Perm.append_left _ ?_
      exact (List.perm_append_comm_assoc _ _ _)
  | loses i c r here _ _ _ =>
      simp only [Cell.reports]
      refine List.Perm.append_left _ (.of_eq ?_)
      exact stays here rfl
  | givesUp i c r here _ _ _ =>
      simp only [Cell.reports, List.map_append, List.map_cons, List.map_nil]
      refine .trans ?_ (List.Perm.append_left _ (leaves here).symm)
      simp only [List.append_assoc]
      exact .refl _

/-- Every report that came is applied once, given up once, or still in flight. -/
theorem run_reports (row : σ) (actions : List (Action ι τ)) :
    (run key move tries row actions).reports.Perm (came actions) := by
  induction actions using List.reverseRecOn with
  | nil => exact .refl _
  | append_singleton actions a ih =>
      rw [run_append]
      cases a with
      | start report =>
          simp only [Cell.step, Cell.reports, came, List.map_append, List.map_cons, List.map_nil,
            List.filterMap_append, List.filterMap_cons, List.filterMap_nil, ← List.append_assoc]
          exact ih.append_right _
      | turn i now =>
          simp only [came, List.filterMap_append, List.filterMap_cons, List.filterMap_nil, List.append_nil]
          exact (turn_cases _ i now).reports.trans ih

/-! ## One after another -/

/-- What the key must say of a row: rows that are `Good` and have one key are not told apart by `sim`,
and a report leads rows not told apart to rows not told apart.  `ok` is what the reports applied are
assumed to be. -/
structure Serial (key : σ → κ) (move : ι → τ → σ → Option σ) (ok : ι → τ → Prop) (Good : σ → Prop)
    (sim : σ → σ → Prop) : Prop where
  equivalence : Equivalence sim
  agree {a b : σ} : Good a → Good b → key a = key b → sim a b
  follow {a b : σ} (report : ι) (now : τ) : sim a b →
    Option.Rel sim (move report now a) (move report now b)
  keeps {a b : σ} {report : ι} {now : τ} : ok report now → Good a → move report now a = some b → Good b

/-- The row is what the applied reports lead to, and every call in flight holds a row that was. -/
structure Cell.InOrder (move : ι → τ → σ → Option σ) (Good : σ → Prop) (sim : σ → σ → Prop) (row : σ)
    (s : Cell σ ι τ) : Prop where
  good : Good s.row
  same : sim s.row (serial move row s.applied)
  held : ∀ c ∈ s.calls, ∀ r, c.read = some r → Good r.row ∧ move c.report r.time r.row = some r.next

variable {ok : ι → τ → Prop} {Good : σ → Prop} {sim : σ → σ → Prop}

theorem Serial.after (serial : Serial key move ok Good sim) {a b : σ} (same : sim a b) (e : ι × τ) :
    sim (after move a e) (after move b e) := by
  have follows := serial.follow e.1 e.2 same
  unfold CompareAndSet.after
  generalize move e.1 e.2 a = x at follows ⊢
  generalize move e.1 e.2 b = y at follows ⊢
  cases follows with
  | some next => exact next
  | none => exact same

theorem Turned.inOrder (law : Serial key move ok Good sim) {row : σ} {s t : Cell σ ι τ}
    (turned : Turned key move tries s t) (oks : ∀ e ∈ t.applied, ok e.1 e.2)
    (inOrder : s.InOrder move Good sim row) : t.InOrder move Good sim row := by
  have rest : ∀ i, ∀ c ∈ s.calls.eraseIdx i, c ∈ s.calls := fun i c member =>
    List.mem_of_mem_eraseIdx member
  cases turned with
  | nothing => exact inOrder
  | still i c now here same =>
      refine ⟨inOrder.good, ?_, fun d member => inOrder.held d (rest i d member)⟩
      show sim s.row (serial move row (s.applied ++ [(c.report, now)]))
      have moved := law.after inOrder.same (c.report, now)
      rw [serial_append]
      simpa [CompareAndSet.after, same] using moved
  | reads i c now next here unread leads =>
      refine ⟨inOrder.good, inOrder.same, ?_⟩
      intro d member r held
      rcases List.mem_or_eq_of_mem_set member with old | rfl
      · exact inOrder.held d old r held
      · obtain rfl := Option.some.inj held
        exact ⟨inOrder.good, leads⟩
  | wins i c r here held sameKey =>
      obtain ⟨goodRead, leads⟩ := inOrder.held c (List.mem_of_getElem? here) r held
      have isOk : ok c.report r.time := oks (c.report, r.time) (by simp)
      refine ⟨law.keeps isOk goodRead leads, ?_, fun d member => inOrder.held d (rest i d member)⟩
      show sim r.next (serial move row (s.applied ++ [(c.report, r.time)]))
      rw [serial_append]
      -- the row it read and the row it found are not told apart, nor is what its report leads them to
      have found := law.agree goodRead inOrder.good sameKey
      have moved := law.after (law.equivalence.trans found inOrder.same) (c.report, r.time)
      simpa [CompareAndSet.after, leads] using moved
  | loses i c r here held moved again =>
      refine ⟨inOrder.good, inOrder.same, ?_⟩
      intro d member r' held'
      rcases List.mem_or_eq_of_mem_set member with old | rfl
      · exact inOrder.held d old r' held'
      · cases held'
  | givesUp i c r here held moved spent =>
      exact ⟨inOrder.good, inOrder.same, fun d member => inOrder.held d (rest i d member)⟩

theorem Turned.applied_mono {s t : Cell σ ι τ} (turned : Turned key move tries s t) :
    ∀ e ∈ s.applied, e ∈ t.applied := by
  intro e member
  cases turned with
  | nothing | reads | loses | givesUp => exact member
  | still | wins => exact List.mem_append_left _ member

theorem run_inOrder (law : Serial key move ok Good sim) {row : σ} (good : Good row)
    (actions : List (Action ι τ)) (oks : ∀ e ∈ (run key move tries row actions).applied, ok e.1 e.2) :
    (run key move tries row actions).InOrder move Good sim row := by
  induction actions using List.reverseRecOn with
  | nil => exact ⟨good, law.equivalence.refl row, by simp [run, Cell.start]⟩
  | append_singleton actions a ih =>
      rw [run_append] at oks ⊢
      cases a with
      | start report =>
          have inOrder := ih oks
          refine ⟨inOrder.good, inOrder.same, ?_⟩
          intro c member r held
          rcases List.mem_append.mp member with old | new
          · exact inOrder.held c old r held
          · obtain rfl := List.mem_singleton.mp new
            cases held
      | turn i now =>
          have turned := @turn_cases _ _ _ _ _ key move tries (run key move tries row actions) i now
          exact turned.inOrder law oks (ih fun e member => oks e (turned.applied_mono e member))

/-- The row is what the applied reports lead to, one after another. -/
theorem run_serial (law : Serial key move ok Good sim) {row : σ} (good : Good row)
    (actions : List (Action ι τ)) (oks : ∀ e ∈ (run key move tries row actions).applied, ok e.1 e.2) :
    sim (run key move tries row actions).row
      (serial move row (run key move tries row actions).applied) :=
  (run_inOrder law good actions oks).same

/-! ## Given up -/

/-- A call has lost as often as others wrote since it began; one whose read is the last write's row
holds the row. -/
structure Call.Counted (row : σ) (writes : Nat) (c : Call σ ι τ) : Prop where
  lost : c.begun + c.lost ≤ c.seen
  seen : c.seen ≤ writes
  fresh : ∀ r, c.read = some r → c.seen = writes → r.row = row

structure Cell.Counted (tries : Nat) (s : Cell σ ι τ) : Prop where
  calls : ∀ c ∈ s.calls, c.Counted s.row s.writes
  givenUp : ∀ c ∈ s.givenUp, c.begun + tries ≤ c.seen ∧ c.seen ≤ s.writes

/-- A write leaves every other call with a read that is not the last. -/
theorem Call.Counted.write {c : Call σ ι τ} {row : σ} {writes : Nat} (counted : c.Counted row writes)
    (next : σ) : c.Counted next (writes + 1) :=
  ⟨counted.lost, Nat.le_succ_of_le counted.seen, fun _ _ last => by
    have := counted.seen
    omega⟩

/-- A call that found another key was overtaken by a write. -/
theorem Call.Counted.overtaken {c : Call σ ι τ} {row : σ} {writes : Nat}
    (counted : c.Counted row writes) {r : Read σ τ} (held : c.read = some r)
    (moved : key r.row ≠ key row) : c.begun + (c.lost + 1) ≤ writes := by
  have last : c.seen ≠ writes := fun last => moved (by rw [counted.fresh r held last])
  have := counted.lost
  have := counted.seen
  omega

theorem Turned.counted {s t : Cell σ ι τ} (turned : Turned key move tries s t)
    (counted : s.Counted tries) : t.Counted tries := by
  have rest : ∀ i, ∀ c ∈ s.calls.eraseIdx i, c ∈ s.calls := fun i c member =>
    List.mem_of_mem_eraseIdx member
  cases turned with
  | nothing => exact counted
  | still i c now here same =>
      exact ⟨fun d member => counted.calls d (rest i d member), counted.givenUp⟩
  | reads i c now next here unread leads =>
      refine ⟨?_, counted.givenUp⟩
      intro d member
      rcases List.mem_or_eq_of_mem_set member with old | rfl
      · exact counted.calls d old
      · have mine := counted.calls c (List.mem_of_getElem? here)
        refine ⟨Nat.le_trans mine.lost mine.seen, Nat.le_refl _, ?_⟩
        intro r held _
        obtain rfl := Option.some.inj held
        rfl
  | wins i c r here held same =>
      refine ⟨fun d member => (counted.calls d (rest i d member)).write r.next, ?_⟩
      intro d member
      have := counted.givenUp d member
      exact ⟨this.1, Nat.le_succ_of_le this.2⟩
  | loses i c r here held moved again =>
      refine ⟨?_, counted.givenUp⟩
      intro d member
      rcases List.mem_or_eq_of_mem_set member with old | rfl
      · exact counted.calls d old
      · have mine := counted.calls c (List.mem_of_getElem? here)
        exact ⟨mine.overtaken held moved, Nat.le_refl _, nofun⟩
  | givesUp i c r here held moved spent =>
      refine ⟨fun d member => counted.calls d (rest i d member), ?_⟩
      intro d member
      rcases List.mem_append.mp member with old | new
      · exact counted.givenUp d old
      · obtain rfl := List.mem_singleton.mp new
        have mine := (counted.calls c (List.mem_of_getElem? here)).overtaken held moved
        exact ⟨Nat.le_trans (Nat.add_le_add_left spent _) mine, Nat.le_refl _⟩

theorem run_counted (row : σ) (actions : List (Action ι τ)) :
    (run key move tries row actions).Counted tries := by
  induction actions using List.reverseRecOn with
  | nil => exact ⟨by simp [run, Cell.start], by simp [run, Cell.start]⟩
  | append_singleton actions a ih =>
      rw [run_append]
      cases a with
      | start report =>
          refine ⟨?_, ih.givenUp⟩
          intro c member
          rcases List.mem_append.mp member with old | new
          · exact ih.calls c old
          · obtain rfl := List.mem_singleton.mp new
            exact ⟨Nat.le_refl _, Nat.le_refl _, nofun⟩
      | turn i now => exact (turn_cases _ i now).counted ih

/-- A report is given up only after `tries` writes of other reports since its call began. -/
theorem run_givenUp (row : σ) (actions : List (Action ι τ)) :
    ∀ c ∈ (run key move tries row actions).givenUp,
      c.begun + tries ≤ c.seen ∧ c.seen ≤ (run key move tries row actions).writes :=
  (run_counted row actions).givenUp

end Calls

end OmarchyPool.Lib.CompareAndSet
