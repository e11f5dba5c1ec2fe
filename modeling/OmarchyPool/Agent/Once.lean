/-
# OmarchyPool.Agent.Once -- an order is carried out once, while it is remembered

An order that was carried out is in the ring, and an id in the ring is passed over.  How long it
stays there is a matter of counting (`Lib.Ring`): every id that is answered enters the ring, the
refused, expired and unknown ones too, and nothing paces those.  While fewer than `seenRing`
other ids are put before the agent, the order is not carried out again; after that many it is.
-/
import OmarchyPool.Agent.Restarts

namespace OmarchyPool.Agent

open OmarchyPool.Lib
open Relation (ReflTransGen)

set_option autoImplicit false

variable {cfg : Config} {w : World} {id : OrderId} {others : Finset OrderId}

def Deed.carried? : Deed → Option OrderId
  | .carried order _ => some order.id
  | _ => none

/-- The ids of the orders carried out, in order. -/
def carriedIds (deeds : List Deed) : List OrderId := deeds.filterMap Deed.carried?

/-- `id` is remembered, behind it are only `others`, and a retirement in flight is of one of
them. -/
structure Remembers (id : OrderId) (others : Finset OrderId) (orders : Orders) : Prop where
  keeps : Ring.Keeps id others orders.seen
  retire : ∀ r, orders.retire = some r → r.order = id ∨ r.order ∈ others

theorem Remembers.remember (few : others.card < seenRing) {orders : Orders}
    (remembers : Remembers id others orders) {other : OrderId}
    (known : other = id ∨ other ∈ others) : Remembers id others (orders.remember other) := by
  refine ⟨?_, remembers.retire⟩
  rcases known with rfl | among
  · exact remembers.keeps.push_self few
  · exact remembers.keeps.push few among

/-! ## What an order does to what is remembered -/

theorem narrowTo_orders (p : Process) (n : Narrow) :
    (narrowTo w p n).state.orders = p.state.orders ∧
      carriedIds (narrowTo w p n).deeds = carriedIds p.deeds := by
  unfold narrowTo
  split
  · exact ⟨rfl, rfl⟩
  split
  · exact ⟨rfl, rfl⟩
  · exact ⟨rfl, rfl⟩
  dsimp only
  split
  · refine ⟨rfl, ?_⟩
    simp [recordRestart, recordAsks, Process.did, Process.setState, carriedIds, Deed.carried?]
  · exact ⟨rfl, rfl⟩

theorem rotateToken_orders (p : Process) :
    (rotateToken w p).state.orders = p.state.orders ∧
      carriedIds (rotateToken w p).deeds = carriedIds p.deeds := by
  unfold rotateToken
  split
  · refine ⟨rfl, ?_⟩
    simp [recordRestart, recordAsks, Process.did, Process.setState, carriedIds, Deed.carried?]
  · exact ⟨rfl, rfl⟩

theorem widenEnvelope_orders (p : Process) :
    (widenEnvelope w p).state.orders = p.state.orders ∧
      carriedIds (widenEnvelope w p).deeds = carriedIds p.deeds := by
  unfold widenEnvelope
  split
  · refine ⟨rfl, ?_⟩
    simp [recordRestart, recordAsks, Process.did, Process.setState, carriedIds, Deed.carried?]
  · exact ⟨rfl, rfl⟩
  · exact ⟨rfl, rfl⟩

/-- What `take` leaves: the order's id remembered, a retirement at most of that order, and one deed
more.  An unknown or unsigned order, which is refused before it gets here, is not remembered. -/
structure Took (p q : Process) (id : OrderId) : Prop where
  seen : q.state.orders.seen = Ring.push seenRing id p.state.orders.seen
  retire : ∀ r, q.state.orders.retire = some r →
    p.state.orders.retire = some r ∨ r.order = id
  carried : carriedIds q.deeds = carriedIds p.deeds ++ [id]

theorem took_answer {o : Order} {p q : Process}
    (same : q.state.orders = p.state.orders ∧
      carriedIds q.deeds = carriedIds (p.did (.carried o w.now)).deeds) :
    Took p (answer q o.id) o.id := by
  refine ⟨?_, ?_, ?_⟩
  · show Ring.push seenRing o.id q.state.orders.seen = _
    rw [same.1]
  · intro r known
    have here : q.state.orders.retire = some r := known
    rw [same.1] at here
    exact Or.inl here
  · show carriedIds q.deeds = _
    rw [same.2]
    simp [Process.did, carriedIds, Deed.carried?]

theorem take_took {o : Order} {p : Process} {now : Int} (accepted : refusedAtOnce o now = false) :
    Took p (take w o p).1 o.id := by
  have plain : Took p (answer (p.did (.carried o w.now)) o.id) o.id := took_answer ⟨rfl, rfl⟩
  unfold take
  dsimp only
  split
  · exact plain
  · split
    · rename_i q begun
      unfold beginRetire at begun
      split at begun
      · cases begun
      split at begun
      · cases begun
        refine ⟨rfl, ?_, plain.carried⟩
        intro r known
        cases known
        exact Or.inr rfl
      · cases begun
    · exact plain
  · exact ⟨plain.seen, plain.retire, plain.carried⟩
  · exact took_answer (narrowTo_orders (p.did (.carried o w.now)) _)
  · exact took_answer (narrowTo_orders (p.did (.carried o w.now)) _)
  · exact took_answer (narrowTo_orders (p.did (.carried o w.now)) _)
  · exact took_answer (narrowTo_orders (p.did (.carried o w.now)) _)
  · exact took_answer (rotateToken_orders (p.did (.carried o w.now)))
  · exact plain
  · exact took_answer (widenEnvelope_orders (p.did (.carried o w.now)))
  · exact plain
  · rename_i kind
    unfold refusedAtOnce at accepted
    rw [kind] at accepted
    cases when : o.notAfter with
    | none => rw [when] at accepted; simp at accepted
    | some time => rw [when] at accepted; simp at accepted
  · rename_i kind
    unfold refusedAtOnce at accepted
    rw [kind] at accepted
    cases when : o.notAfter with
    | none => rw [when] at accepted; simp at accepted
    | some time => rw [when] at accepted; simp at accepted
  · rename_i kind
    unfold refusedAtOnce at accepted
    rw [kind] at accepted
    simp at accepted

theorem Took.remembers (few : others.card < seenRing) {p q : Process} {other : OrderId}
    (took : Took p q other) (known : other = id ∨ other ∈ others)
    (remembers : Remembers id others p.state.orders) : Remembers id others q.state.orders := by
  have pushed := remembers.remember few known
  refine ⟨?_, ?_⟩
  · rw [took.seen]
    exact pushed.keeps
  · intro r flight
    rcases took.retire r flight with before | here
    · exact remembers.retire r before
    · rw [here]
      exact known

/-! ## The queue -/

/-- A remembered order is passed over. -/
theorem takeEach_remembers (few : others.card < seenRing) (busy : Bool) (orders : List Order)
    (p : Process) (known : ∀ o ∈ orders, o.id = id ∨ o.id ∈ others)
    (remembers : Remembers id others p.state.orders) :
    Remembers id others (takeEach w busy orders p).1.state.orders ∧
      ∃ more, carriedIds (takeEach w busy orders p).1.deeds = carriedIds p.deeds ++ more ∧
        id ∉ more := by
  induction orders generalizing p with
  | nil => exact ⟨remembers, [], (List.append_nil _).symm, by simp⟩
  | cons o rest ih =>
      have later : ∀ q : Process, Remembers id others q.state.orders → _ :=
        fun q => ih q fun other mem => known other (List.mem_cons_of_mem _ mem)
      have here := known o List.mem_cons_self
      unfold takeEach
      split
      · exact later p remembers
      split
      · exact later p remembers
      rename_i unseen
      have other : o.id ≠ id := by
        intro same
        exact unseen (same ▸ remembers.keeps.mem)
      split
      · exact later _ (remembers.remember few here)
      rename_i accepted
      split
      · exact later p remembers
      split
      · exact ⟨remembers, [], (List.append_nil _).symm, by simp⟩
      dsimp only
      split
      · exact later _ (remembers.remember few here)
      · have took := take_took (w := w) (p := recordAsks (p.setState { p.state with
          brake := p.state.brake.considered w.now }) w.now [.order])
          (Bool.eq_false_iff.mpr accepted)
        obtain ⟨kept, more, carried, absent⟩ := later _ (took.remembers few here remembers)
        refine ⟨kept, o.id :: more, ?_, ?_⟩
        · rw [carried, took.carried, List.append_assoc]
          rfl
        · intro mem
          rcases List.mem_cons.mp mem with same | later
          · exact other same.symm
          · exact absent later

/-- An order that is carried out is remembered from there on. -/
theorem takeEach_carries (few : others.card < seenRing) (busy : Bool) (orders : List Order)
    (p : Process) (known : ∀ o ∈ orders, o.id = id ∨ o.id ∈ others)
    (retire : ∀ r, p.state.orders.retire = some r → r.order = id ∨ r.order ∈ others) :
    (∀ r, (takeEach w busy orders p).1.state.orders.retire = some r →
      r.order = id ∨ r.order ∈ others) ∧
      ∃ more, carriedIds (takeEach w busy orders p).1.deeds = carriedIds p.deeds ++ more ∧
        (id ∈ more → Remembers id others (takeEach w busy orders p).1.state.orders) := by
  induction orders generalizing p with
  | nil => exact ⟨retire, [], (List.append_nil _).symm, by simp⟩
  | cons o rest ih =>
      have knownLater : ∀ other ∈ rest, other.id = id ∨ other.id ∈ others :=
        fun other mem => known other (List.mem_cons_of_mem _ mem)
      have here := known o List.mem_cons_self
      unfold takeEach
      split
      · exact ih p knownLater retire
      split
      · exact ih p knownLater retire
      rename_i unseen
      split
      · exact ih _ knownLater retire
      rename_i accepted
      split
      · exact ih p knownLater retire
      split
      · exact ⟨retire, [], (List.append_nil _).symm, by simp⟩
      dsimp only
      split
      · exact ih _ knownLater retire
      · have took := take_took (w := w) (p := recordAsks (p.setState { p.state with
          brake := p.state.brake.considered w.now }) w.now [.order])
          (Bool.eq_false_iff.mpr accepted)
        have retireNow : ∀ r, (take w o (recordAsks (p.setState { p.state with
            brake := p.state.brake.considered w.now }) w.now [.order])).1.state.orders.retire =
              some r → r.order = id ∨ r.order ∈ others := by
          intro r flight
          rcases took.retire r flight with before | same
          · exact retire r before
          · rw [same]
            exact here
        obtain ⟨after, more, carried, remembers⟩ := ih _ knownLater retireNow
        have whole : ∀ more, carriedIds p.deeds ++ [o.id] ++ more =
            carriedIds p.deeds ++ (o.id :: more) := by simp
        by_cases same : o.id = id
        · -- The order itself: it has just entered the ring.
          have entered : Remembers id others (take w o (recordAsks (p.setState { p.state with
              brake := p.state.brake.considered w.now }) w.now [.order])).1.state.orders := by
            refine ⟨?_, retireNow⟩
            rw [took.seen, same]
            exact Ring.keeps_push_new few (same ▸ unseen)
          have rest := takeEach_remembers (w := w) few busy rest _ knownLater entered
          refine ⟨after, o.id :: more, ?_, fun _ => rest.1⟩
          rw [carried, took.carried]
          exact whole more
        · refine ⟨after, o.id :: more, ?_, ?_⟩
          · rw [carried, took.carried]
            exact whole more
          · intro mem
            rcases List.mem_cons.mp mem with now | later
            · exact absurd now.symm same
            · exact remembers later

/-- The rounds that are asked for are asked for by orders of the queue. -/
theorem takeEach_rounds (busy : Bool) (orders : List Order) (p : Process) :
    ∀ round ∈ (takeEach w busy orders p).2, ∃ o ∈ orders, o.id = round := by
  induction orders generalizing p with
  | nil => intro round mem; cases mem
  | cons o rest ih =>
      have later : ∀ q, ∀ round ∈ (takeEach w busy rest q).2, ∃ other ∈ o :: rest,
          other.id = round := by
        intro q round mem
        obtain ⟨other, inRest, same⟩ := ih q round mem
        exact ⟨other, List.mem_cons_of_mem _ inRest, same⟩
      unfold takeEach
      split
      · exact later p
      split
      · exact later p
      split
      · exact later _
      split
      · exact later p
      split
      · intro round mem; cases mem
      dsimp only
      split
      · exact later _
      · intro round mem
        rcases List.mem_append.mp mem with here | mem
        · refine ⟨o, List.mem_cons_self, ?_⟩
          unfold take at here
          dsimp only at here
          split at here
          · exact (List.mem_singleton.mp here).symm
          · split at here <;> cases here
          · exact (List.mem_singleton.mp here).symm
          all_goals cases here
        · exact later _ round mem

/-! ## A whole tick -/

/-- The Updates a tick looks at. -/
def updatesPut (w : World) : List OrderId :=
  if w.roundNow || w.due then
    match w.answer with
    | .ok s => s.updates
    | .noAnswer | .unauthorized => []
  else []

/-- The ids a tick puts before the agent. -/
def idsPut (w : World) (p : Process) : List OrderId :=
  (ordersPut w p).map Order.id ++ updatesPut w

/-- Nothing that follows the orders touches them, or carries one out. -/
structure Untouched (p q : Process) : Prop where
  orders : q.state.orders = p.state.orders
  carried : carriedIds q.deeds = carriedIds p.deeds

theorem Untouched.refl (p : Process) : Untouched p p := ⟨rfl, rfl⟩

theorem Untouched.trans {p q r : Process} (one : Untouched p q) (two : Untouched q r) :
    Untouched p r :=
  ⟨two.orders.trans one.orders, two.carried.trans one.carried⟩

theorem carriedIds_append {deeds more : List Deed} (none : ∀ d ∈ more, d.carried? = none) :
    carriedIds (deeds ++ more) = carriedIds deeds := by
  have nothing : more.filterMap Deed.carried? = [] := List.filterMap_eq_nil_iff.mpr none
  rw [carriedIds, List.filterMap_append, nothing, List.append_nil]
  rfl

theorem followMoves_untouched {now : Int} {named : Option Release} {p q : Process}
    (moves : ReflTransGen (FollowMove cfg now named) p q) : Untouched p q := by
  induction moves with
  | refl => exact Untouched.refl p
  | tail _ move ih =>
      refine ih.trans ?_
      cases move with
      | quiet _ orders deeds => exact ⟨orders, by rw [deeds]⟩
      | noted _ => exact ⟨rfl, rfl⟩
      | merged _ => exact ⟨rfl, rfl⟩
      | accepted _ _ _ _ _ _ _ _ _ _ => exact ⟨rfl, carriedIds_append (by simp [Deed.carried?])⟩
      | changed _ _ _ => exact ⟨rfl, carriedIds_append (by simp [Deed.carried?])⟩
      | begun _ _ _ _ => exact ⟨rfl, carriedIds_append (by simp [Deed.carried?])⟩

theorem carried?_guarding {d : Deed} (guarding : Guarding d) : d.carried? = none := by
  cases d with
  | carried _ _ => exact guarding.elim
  | _ => rfl

theorem performed_untouched {now : Int} {p : Process} {work : Work}
    (stepped : Stepped now p.state work.state work.deeds) : Untouched p (performed p work) := by
  have orders : work.state.orders = p.state.orders ∧ ∀ d ∈ work.deeds, d.carried? = none := by
    generalize work.deeds = deeds at stepped
    cases stepped with
    | kept _ _ rest _ _ _ guarding => exact ⟨rest.orders, fun d mem => carried?_guarding (guarding d mem)⟩
    | counted _ _ rest _ _ _ guarding =>
        refine ⟨rest.orders, ?_⟩
        intro d mem
        rcases List.mem_cons.mp mem with rfl | later
        · rfl
        · exact carried?_guarding (guarding d later)
    | ended _ _ rest _ => exact ⟨rest.orders, by simp⟩
    | committed _ _ _ _ _ _ _ _ _ rest _ => exact ⟨rest.orders, by simp [Deed.carried?]⟩
  exact ⟨orders.1, carriedIds_append orders.2⟩

theorem restoreSettings_untouched (p : Process) (kept : Option Settings) :
    Untouched p (restoreSettings w p kept) := by
  unfold restoreSettings
  split
  · exact Untouched.refl p
  split
  · exact Untouched.refl p
  split
  · exact Untouched.refl p
  split
  · exact Untouched.refl p
  dsimp only
  split
  · exact ⟨rfl, carriedIds_append (by simp [Deed.carried?])⟩
  · exact ⟨rfl, rfl⟩

theorem reloadPending_untouched (p : Process) : Untouched p (reloadPending w p) := by
  unfold reloadPending
  split
  · split
    · exact Untouched.refl p
    · split
      · split
        · exact ⟨rfl, rfl⟩
        · exact ⟨rfl, rfl⟩
      · exact Untouched.refl p
      · exact Untouched.refl p
  · exact Untouched.refl p

theorem say_untouched (p : Process) (now : Int) (outcome : Outcome) :
    Untouched p (say p now outcome) := by
  unfold say
  split
  · exact ⟨rfl, rfl⟩
  · exact Untouched.refl p

/-- A property of the orders that stays while only ids known to it are answered. -/
structure Lasts (id : OrderId) (others : Finset OrderId) (Holds : Orders → Prop) : Prop where
  remember : ∀ {orders : Orders} {other : OrderId}, (other = id ∨ other ∈ others) → Holds orders →
    Holds (orders.remember other)
  retire : ∀ {orders : Orders} {r : Retire}, Holds orders → orders.retire = some r →
    r.order = id ∨ r.order ∈ others
  isOver : ∀ {orders : Orders}, Holds orders → Holds { orders with retire := none }
  goesOn : ∀ {orders : Orders} {r : Retire} (step : RetireStep), Holds orders →
    orders.retire = some r → Holds { orders with retire := some { r with step := step } }

theorem lasts_remembers (few : others.card < seenRing) :
    Lasts id others (Remembers id others) where
  remember := fun known remembers => remembers.remember few known
  retire := fun remembers flight => remembers.retire _ flight
  isOver := fun remembers => ⟨remembers.keeps, fun _ flight => by cases flight⟩
  goesOn := by
    intro orders r step remembers flight
    refine ⟨remembers.keeps, ?_⟩
    intro r' flight'
    cases flight'
    exact remembers.retire r flight

/-- A retirement in flight is of a known order. -/
def RetireKnown (id : OrderId) (others : Finset OrderId) (orders : Orders) : Prop :=
  ∀ r, orders.retire = some r → r.order = id ∨ r.order ∈ others

theorem lasts_retireKnown : Lasts id others (RetireKnown id others) where
  remember := fun _ holds => holds
  retire := fun holds flight => holds _ flight
  isOver := fun _ _ flight => by cases flight
  goesOn := by
    intro orders r step holds flight r' flight'
    cases flight'
    exact holds r flight

theorem answers_carried (rounds : List OrderId) (p : Process) :
    carriedIds (rounds.foldl answer p).deeds = carriedIds p.deeds := by
  induction rounds generalizing p with
  | nil => rfl
  | cons first rest ih =>
      rw [List.foldl_cons]
      exact ih (answer p first)

theorem closing_carried (p : Process) : carriedIds (closing w p).deeds = carriedIds p.deeds := by
  unfold closing
  split
  · rfl
  unfold retireStep
  split
  · rfl
  dsimp only
  split
  · rfl
  split
  · split <;> rfl
  · rfl

theorem afterOrders_carried (p : Process) (rounds : List OrderId) (target : Option Release)
    (force : Option String) (targeted : Targeted p.state) :
    carriedIds (afterOrders cfg w p rounds target force).deeds = carriedIds p.deeds := by
  unfold afterOrders
  rw [answers_carried]
  exact (followMoves_untouched (@followTarget_moves cfg w p target
    (force.or (rounds.head?.map fun id => "host order " ++ id)) targeted)).carried

theorem acting_untouched {p : Process} (stays : ¬ p.exit = true) :
    Untouched (attend cfg w p) (acting cfg w p) := by
  unfold acting
  rw [if_neg stays]
  dsimp only
  split
  · exact Untouched.refl _
  split
  · rename_i idle
    exact (followMoves_untouched (@drift_moves cfg w none _ idle)).trans
      (reloadPending_untouched _)
  · exact reloadPending_untouched _

section Ticks

variable {Holds : Orders → Prop} (lasts : Lasts id others Holds)
include lasts

theorem takeUpdate_holds (busy : Bool) (updates : List OrderId) (p : Process)
    (known : ∀ other ∈ updates, other = id ∨ other ∈ others) (holds : Holds p.state.orders) :
    Holds (takeUpdate w busy updates p).1.state.orders ∧
      carriedIds (takeUpdate w busy updates p).1.deeds = carriedIds p.deeds := by
  unfold takeUpdate
  split
  · exact ⟨holds, rfl⟩
  rename_i first found
  dsimp only
  split
  · exact ⟨holds, rfl⟩
  · exact ⟨lasts.remember (known first (List.mem_of_find?_eq_some found)) holds, rfl⟩

theorem answers_hold (rounds : List OrderId) (p : Process)
    (known : ∀ other ∈ rounds, other = id ∨ other ∈ others) (holds : Holds p.state.orders) :
    Holds (rounds.foldl answer p).state.orders := by
  induction rounds generalizing p with
  | nil => exact holds
  | cons first rest ih =>
      rw [List.foldl_cons]
      exact ih (answer p first) (fun other mem => known other (List.mem_cons_of_mem _ mem))
        (lasts.remember (known first List.mem_cons_self) holds)

theorem closing_holds (p : Process) (holds : Holds p.state.orders) :
    Holds (closing w p).state.orders := by
  unfold closing
  split
  · exact holds
  unfold retireStep
  split
  · exact holds
  rename_i r flight
  have known := lasts.retire holds flight
  dsimp only
  split
  · exact lasts.remember known (lasts.isOver holds)
  split
  · split
    · exact lasts.goesOn .remove holds flight
    · exact lasts.remember known (lasts.isOver holds)
  · exact holds

/-- The target followed and the rounds answered, after the orders were taken. -/
theorem afterOrders_holds (p : Process) (rounds : List OrderId) (target : Option Release)
    (force : Option String) (targeted : Targeted p.state)
    (known : ∀ other ∈ rounds, other = id ∨ other ∈ others) (holds : Holds p.state.orders) :
    Holds (afterOrders cfg w p rounds target force).state.orders := by
  unfold afterOrders
  have follows := followMoves_untouched (@followTarget_moves cfg w p target
    (force.or (rounds.head?.map fun id => "host order " ++ id)) targeted)
  exact answers_hold lasts rounds _ known (follows.orders ▸ holds)

/-- A tick up to the orders, and from them on: what it takes them from (`start`), and what becomes
of what holds once they were taken. -/
theorem attend_holds (p : Process) (targeted : Targeted p.state)
    (known : ∀ other ∈ idsPut w p, other = id ∨ other ∈ others) (holds : Holds p.state.orders) :
    ∃ start waits, Holds start.state.orders ∧ carriedIds start.deeds = carriedIds p.deeds ∧
      carriedIds (attend cfg w p).deeds =
        carriedIds (takeEach w waits (ordersPut w p) start).1.deeds ∧
      ∀ {Later : Orders → Prop}, Lasts id others Later →
        Later (takeEach w waits (ordersPut w p) start).1.state.orders →
        Later (attend cfg w p).state.orders := by
  have knownOrder : ∀ o ∈ ordersPut w p, o.id = id ∨ o.id ∈ others := by
    intro o mem
    exact known o.id (List.mem_append_left _ (List.mem_map_of_mem mem))
  have knownUpdate : ∀ other ∈ updatesPut w, other = id ∨ other ∈ others := by
    intro other mem
    exact known other (List.mem_append_right _ mem)
  have knownRound : ∀ (busy : Bool) (q : Process), ∀ round ∈ (takeEach w busy (ordersPut w p) q).2,
      round = id ∨ round ∈ others := by
    intro busy q round mem
    obtain ⟨o, isPut, same⟩ := takeEach_rounds busy _ q round mem
    rw [← same]
    exact knownOrder o isPut
  have nothing : ∀ q : Process, ordersPut w p = [] → Untouched p q → attend cfg w p = q →
      ∃ start waits, Holds start.state.orders ∧ carriedIds start.deeds = carriedIds p.deeds ∧
        carriedIds (attend cfg w p).deeds =
          carriedIds (takeEach w waits (ordersPut w p) start).1.deeds ∧
        ∀ {Later : Orders → Prop}, Lasts id others Later →
          Later (takeEach w waits (ordersPut w p) start).1.state.orders →
          Later (attend cfg w p).state.orders := by
    intro q none untouched attends
    refine ⟨p, true, holds, rfl, ?_, ?_⟩
    · rw [attends, none, untouched.carried]
      rfl
    · intro Later _ later
      rw [none] at later
      rw [attends, untouched.orders]
      exact later
  by_cases polled : (w.roundNow || w.due) = true
  · cases answered : w.answer with
    | ok s =>
        have isPut : ordersPut w p = s.orders := by
          unfold ordersPut
          rw [if_pos polled, answered]
        have updates : updatesPut w = s.updates := by
          unfold updatesPut
          rw [if_pos polled, answered]
        have attends : attend cfg w p = onState cfg w p s := by
          unfold attend poll
          rw [if_pos polled, answered]
        rw [updates] at knownUpdate
        obtain ⟨updated, sameIds⟩ := takeUpdate_holds (w := w) lasts (busy p.state) s.updates p
          knownUpdate holds
        have quiet := (takeUpdate_quiet (w := w) (busy p.state) s.updates p).1
        rw [attends]
        unfold onState
        dsimp only
        generalize takeUpdate w (busy p.state) s.updates p = taken at updated sameIds quiet
        have settled := restoreSettings_untouched (w := w) taken.1 s.settings
        refine ⟨{ restoreSettings w taken.1 s.settings with queue := s.orders }, busy p.state, ?_, ?_,
          ?_, ?_⟩
        · show Holds (restoreSettings w taken.1 s.settings).state.orders
          rw [settled.orders]
          exact updated
        · exact settled.carried.trans sameIds
        all_goals
          have stillTargeted : Targeted (takeEach w (busy p.state) s.orders
              { restoreSettings w taken.1 s.settings with queue := s.orders }).1.state := by
            have orders := @takeEach_moves w (busy p.state) s.orders
              { restoreSettings w taken.1 s.settings with queue := s.orders }
            have settle := @restoreSettings_moves w taken.1 s.settings
            unfold Targeted
            rw [orderMoves_rollout orders]
            show (restoreSettings w taken.1 s.settings).state.rollout.step ≠ .idle → _
            rw [orderMoves_rollout settle, quiet.rollout]
            exact targeted
          rw [isPut] at knownRound ⊢
        · exact afterOrders_carried _ _ _ _ stillTargeted
        · intro Later laterLasts later
          exact afterOrders_holds laterLasts _ _ _ _ stillTargeted (knownRound _ _) later
    | noAnswer =>
        refine nothing (say p w.now .poolUnreachable) ?_ (say_untouched p _ _) ?_
        · unfold ordersPut
          rw [if_pos polled, answered]
        · unfold attend poll
          rw [if_pos polled, answered]
    | unauthorized =>
        refine nothing (say p w.now .unauthorized) ?_ (say_untouched p _ _) ?_
        · unfold ordersPut
          rw [if_pos polled, answered]
        · unfold attend poll
          rw [if_pos polled, answered]
  · have isPut : ordersPut w p = p.queue := by
      unfold ordersPut
      rw [if_neg polled]
    by_cases none : p.queue = []
    · refine nothing p (isPut.trans none) (Untouched.refl p) ?_
      unfold attend
      rw [if_neg polled, if_pos none]
    · have stillTargeted : Targeted (takeEach w (busy p.state) p.queue p).1.state := by
        have orders := @takeEach_moves w (busy p.state) p.queue p
        unfold Targeted
        rw [orderMoves_rollout orders]
        exact targeted
      unfold attend
      rw [if_neg polled, if_neg none, isPut]
      rw [isPut] at knownRound
      dsimp only [takeOrders]
      refine ⟨p, busy p.state, holds, rfl, ?_, ?_⟩
      · split
        · rfl
        · exact afterOrders_carried _ _ _ _ stillTargeted
      · intro Later laterLasts later
        split
        · exact later
        · exact afterOrders_holds laterLasts _ _ _ _ stillTargeted (knownRound _ _) later

/-- The same of the whole tick. -/
theorem ticked_holds (p : Process) (targeted : Targeted p.state)
    (known : ∀ other ∈ idsPut w p, other = id ∨ other ∈ others) (holds : Holds p.state.orders) :
    ∃ start waits orders, Holds start.state.orders ∧ carriedIds start.deeds = carriedIds p.deeds ∧
      (∀ o ∈ orders, o.id = id ∨ o.id ∈ others) ∧
      carriedIds (ticked cfg w p).deeds = carriedIds (takeEach w waits orders start).1.deeds ∧
      ∀ {Later : Orders → Prop}, Lasts id others Later →
        Later (takeEach w waits orders start).1.state.orders →
        Later (ticked cfg w p).state.orders := by
  by_cases leaves : p.exit = true
  · have stays : acting cfg w p = p := by
      unfold acting
      rw [if_pos leaves]
    have still : Untouched p (performed p (workOf cfg w p)) := performed_untouched (workOf_stepped p)
    refine ⟨p, true, [], holds, rfl, by simp, ?_, ?_⟩
    · unfold ticked
      rw [stays, closing_carried, still.carried]
      rfl
    · intro Later laterLasts later
      unfold ticked
      rw [stays]
      exact closing_holds laterLasts _ (still.orders ▸ later)
  · obtain ⟨start, waits, begun, sameIds, carried, after⟩ := @attend_holds cfg w id others Holds lasts p
      targeted known holds
    have done := (@acting_untouched cfg w p leaves).trans
      (performed_untouched (@workOf_stepped cfg w (acting cfg w p)))
    refine ⟨start, waits, ordersPut w p, begun, sameIds, ?_, ?_, ?_⟩
    · intro o mem
      exact known o.id (List.mem_append_left _ (List.mem_map_of_mem mem))
    · rw [← carried, ← done.carried]
      exact closing_carried _
    · intro Later laterLasts later
      exact closing_holds laterLasts _ (done.orders ▸ after laterLasts later)

end Ticks

theorem ticked_remembers (few : others.card < seenRing) {p : Process} (targeted : Targeted p.state)
    (known : ∀ other ∈ idsPut w p, other = id ∨ other ∈ others)
    (remembers : Remembers id others p.state.orders) :
    Remembers id others (ticked cfg w p).state.orders ∧
      ∃ more, carriedIds (ticked cfg w p).deeds = carriedIds p.deeds ++ more ∧ id ∉ more := by
  obtain ⟨start, waits, orders, begun, sameIds, knownOrder, carried, after⟩ :=
    @ticked_holds cfg w id others _ (lasts_remembers few) p targeted known remembers
  obtain ⟨kept, more, grown, absent⟩ := takeEach_remembers (w := w) few waits orders start knownOrder
    begun
  exact ⟨after (lasts_remembers few) kept, more, by rw [carried, grown, sameIds], absent⟩

theorem ticked_carries (few : others.card < seenRing) {p : Process} (targeted : Targeted p.state)
    (known : ∀ other ∈ idsPut w p, other = id ∨ other ∈ others)
    (flight : RetireKnown id others p.state.orders) :
    ∃ more, carriedIds (ticked cfg w p).deeds = carriedIds p.deeds ++ more ∧
      (id ∈ more → Remembers id others (ticked cfg w p).state.orders) := by
  obtain ⟨start, waits, orders, begun, sameIds, knownOrder, carried, after⟩ :=
    @ticked_holds cfg w id others _ lasts_retireKnown p targeted known flight
  obtain ⟨-, more, grown, remembers⟩ := takeEach_carries (w := w) few waits orders start knownOrder
    begun
  refine ⟨more, by rw [carried, grown, sameIds], ?_⟩
  intro mem
  exact after (lasts_remembers few) (remembers mem)

/-! ## Over a run -/

/-- A tick that saves what it did, or a restart between two ticks. -/
def Event.saves : Event → Prop
  | .tick _ | .restart _ => True
  | .unsaved _ _ | .dies _ _ _ => False

/-- Beside `id`, only `others` are put before the agent. -/
def PutsOnly (cfg : Config) (id : OrderId) (others : Finset OrderId) :
    Process → List Event → Prop
  | _, [] => True
  | p, e :: rest =>
      (match e with
        | .tick w => ∀ other ∈ idsPut w p, other = id ∨ other ∈ others
        | .unsaved _ _ | .dies _ _ _ | .restart _ => True) ∧
        PutsOnly cfg id others (p.next cfg e) rest

theorem orders_resume (s : State) (now : Int) : (resume s now).orders = s.orders := by
  unfold resume
  split <;> rfl

theorem remembered_run (few : others.card < seenRing) {p : Process} (trusted : Trusted cfg p)
    (same : p.saved.orders = p.state.orders) (remembers : Remembers id others p.state.orders)
    {events : List Event} (saves : ∀ e ∈ events, e.saves)
    (puts : PutsOnly cfg id others p events) :
    ∃ more, carriedIds (p.run cfg events).deeds = carriedIds p.deeds ++ more ∧ id ∉ more := by
  induction events generalizing p with
  | nil => exact ⟨[], (List.append_nil _).symm, by simp⟩
  | cons e rest ih =>
      have next := trusted_next trusted e
      have savesLater : ∀ e ∈ rest, e.saves := fun e mem => saves e (List.mem_cons_of_mem _ mem)
      cases e with
      | tick w =>
          obtain ⟨kept, first, here, absent⟩ := ticked_remembers few trusted.state.targeted puts.1
            remembers
          obtain ⟨more, after, later⟩ := ih next rfl kept savesLater puts.2
          refine ⟨first ++ more, ?_, ?_⟩
          · rw [← List.append_assoc, ← here]
            exact after
          · intro mem
            exact (List.mem_append.mp mem).elim absent later
      | restart time =>
          have ordersAre : (restarted time p).state.orders = p.state.orders :=
            (orders_resume p.saved time).trans same
          exact ih next (orders_resume p.saved time).symm (ordersAre ▸ remembers) savesLater puts.2
      | unsaved w done => exact (saves _ List.mem_cons_self).elim
      | dies w done time => exact (saves _ List.mem_cons_self).elim

/-- Once a tick carried an order out, no later tick does, while fewer than `seenRing` other ids are
put before the agent from that tick on. -/
theorem order_carried_out_once (cfg : Config) (before : List Event) (w : World) (after : List Event)
    (id : OrderId) (others : Finset OrderId) (few : others.card < seenRing)
    (flight : RetireKnown id others (Process.fresh.run cfg before).state.orders)
    (puts : PutsOnly cfg id others (Process.fresh.run cfg before) (.tick w :: after))
    (saves : ∀ e ∈ after, e.saves)
    (carried : id ∈ (carriedIds ((Process.fresh.run cfg before).next cfg (.tick w)).deeds).drop
      (carriedIds (Process.fresh.run cfg before).deeds).length) :
    id ∉ (carriedIds (((Process.fresh.run cfg before).next cfg (.tick w)).run cfg after).deeds).drop
      (carriedIds ((Process.fresh.run cfg before).next cfg (.tick w)).deeds).length := by
  have trusted : Trusted cfg (Process.fresh.run cfg before) := trusted_run trusted_fresh before
  generalize Process.fresh.run cfg before = p at trusted flight puts carried ⊢
  obtain ⟨first, here, remembers⟩ := @ticked_carries cfg w id others few p
    trusted.state.targeted puts.1 flight
  have deedsAre : carriedIds (p.next cfg (.tick w)).deeds = carriedIds p.deeds ++ first := here
  rw [deedsAre, List.drop_left] at carried
  obtain ⟨more, whole, absent⟩ := remembered_run few (trusted_next trusted (.tick w)) rfl
    (remembers carried) saves puts.2
  rw [whole, List.drop_left]
  exact absent

/-! ## Forgetting an order -/

/-- Nothing runs and nothing is in flight. -/
structure Waiting (p : Process) : Prop where
  exit : p.exit = false
  idle : p.state.rollout.step = .idle
  applied : p.state.applied = none
  retire : p.state.orders.retire = none

theorem waiting_tick {p q : Process} (before : p.exit = false) (attends : attend cfg w p = q)
    (waiting : Waiting q) :
    p.next cfg (.tick w) = { q with saved := q.state, pending := none } := by
  have still : acting cfg w p = q := by
    unfold acting
    rw [attends]
    simp only [before, waiting.exit, waiting.idle, Bool.false_eq_true, if_false, if_true]
    have noDrift : drift cfg w q = q := by
      unfold drift
      rw [waiting.applied]
    rw [noDrift]
    unfold reloadPending
    rw [waiting.idle]
  have nothing : workOf cfg w q = .stay q.state := by
    unfold workOf step
    rw [waiting.exit, waiting.idle]
    rfl
  have performs : performed q (workOf cfg w q) = { q with pending := none } := by
    rw [nothing]
    unfold performed Work.stay
    simp only [waiting.idle, if_true, Disk.after, List.foldl_nil, List.append_nil]
  have ticks : ticked cfg w p = { q with pending := none } := by
    unfold ticked
    dsimp only
    rw [still, performs]
    unfold closing retireStep
    simp only [waiting.exit, waiting.retire, Bool.false_eq_true, if_false]
  show ({ ticked cfg w p with saved := (ticked cfg w p).state } : Process) = _
  rw [ticks]

def unknownOrder (id : OrderId) : Order := ⟨id, .unknown "", none⟩

/-- Orders of no known kind are refused, and remembered. -/
theorem takeEach_unknown (busy : Bool) (ids : List OrderId) (p : Process)
    (retire : p.state.orders.retire = none) (short : p.state.orders.seen.length ≤ seenRing) :
    takeEach w busy (ids.map unknownOrder) p =
      ({ p with
        state := { p.state with
          orders := { p.state.orders with seen := Ring.pushAll seenRing ids p.state.orders.seen } }
        queue := [] }, []) := by
  induction ids generalizing p with
  | nil => rfl
  | cons first rest ih =>
      have pushes : Ring.pushAll seenRing (first :: rest) p.state.orders.seen =
          Ring.pushAll seenRing rest (Ring.push seenRing first p.state.orders.seen) := rfl
      rw [List.map_cons, takeEach, retire, pushes]
      simp only [Option.any_none, Bool.false_eq_true, if_false]
      by_cases seen : (unknownOrder first).id ∈ p.state.orders.seen
      · have same : Ring.push seenRing first p.state.orders.seen = p.state.orders.seen :=
          Ring.push_of_mem short seen
        rw [if_pos seen, ih p retire short, same]
      · rw [if_neg seen]
        have refused : refusedAtOnce (unknownOrder first) w.now = true := rfl
        rw [if_pos refused]
        exact ih (answer p first) retire (Ring.push_length _ _)

/-- A poll of orders of no known kind. -/
def refusing (now : Int) (ids : List OrderId) (few : ids.length ≤ maxOrders) : World :=
  { calmWorld now with
    due := true
    answer := .ok ⟨none, [], ids.map unknownOrder, none, Nat.zero_le _,
      by rw [List.length_map]; exact few⟩ }

theorem refusing_tick {p : Process} (waiting : Waiting p)
    (short : p.state.orders.seen.length ≤ seenRing) (now : Int) (ids : List OrderId)
    (few : ids.length ≤ maxOrders) :
    p.next cfg (.tick (refusing now ids few)) =
      { p with
        state := { p.state with
          orders := { p.state.orders with seen := Ring.pushAll seenRing ids p.state.orders.seen } }
        saved := { p.state with
          orders := { p.state.orders with seen := Ring.pushAll seenRing ids p.state.orders.seen } }
        queue := []
        pending := none } := by
  have attends : attend cfg (refusing now ids few) p =
      (takeEach (refusing now ids few) (busy p.state) (ids.map unknownOrder)
        { p with queue := ids.map unknownOrder }).1 := by
    have noRounds : (takeEach (refusing now ids few) (busy p.state) (ids.map unknownOrder)
        { p with queue := ids.map unknownOrder }).2 = [] := by
      rw [takeEach_unknown _ _ { p with queue := ids.map unknownOrder } waiting.retire short]
    have polled : ((refusing now ids few).roundNow || (refusing now ids few).due) = true := rfl
    unfold attend
    rw [if_pos polled]
    show afterOrders cfg (refusing now ids few) _ (takeEach (refusing now ids few) (busy p.state)
      (ids.map unknownOrder) { p with queue := ids.map unknownOrder }).2 none _ = _
    rw [noRounds]
    rfl
  rw [takeEach_unknown _ _ { p with queue := ids.map unknownOrder } waiting.retire short] at attends
  exact waiting_tick waiting.exit attends ⟨waiting.exit, waiting.idle, waiting.applied, waiting.retire⟩

/-- Polls of ids in turn, sixteen polls of `maxOrders` ids each. -/
def idOf (poll place : Nat) : OrderId :=
  String.ofList (List.replicate (poll + 1) 'a' ++ List.replicate (place + 1) 'b')

def idsOf (poll : Nat) : List OrderId := (List.range maxOrders).map (idOf poll)

theorem idsOf_few (poll : Nat) : (idsOf poll).length ≤ maxOrders := by
  simp [idsOf]

def flood (polls : Nat) : List Event :=
  (List.range polls).map fun poll : Nat =>
    .tick (refusing (10 + (poll : Int)) (idsOf poll) (idsOf_few poll))

theorem idOf_inj {poll place poll' place' : Nat} (same : idOf poll place = idOf poll' place') :
    poll = poll' ∧ place = place' := by
  have lists := String.ofList_injective same
  have as := congrArg (List.count 'a') lists
  have bs := congrArg (List.count 'b') lists
  simp [List.count_append, List.count_replicate] at as bs
  exact ⟨as, bs⟩

theorem idsOf_nodup : ((List.range 16).flatMap idsOf).Nodup := by
  rw [List.nodup_flatMap]
  refine ⟨?_, ?_⟩
  · intro poll _
    refine List.Nodup.map ?_ List.nodup_range
    intro place place' same
    exact (idOf_inj same).2
  · refine List.nodup_range.imp ?_
    intro poll poll' different id mem mem'
    obtain ⟨place, -, rfl⟩ := List.mem_map.mp mem
    obtain ⟨place', -, same⟩ := List.mem_map.mp mem'
    exact different (idOf_inj same).1.symm

/-- What a flood leaves of a process that waits: its ids in the ring, and nothing else. -/
theorem flood_run (cfg : Config) {p : Process} (waiting : Waiting p)
    (short : p.state.orders.seen.length ≤ seenRing) (polls : Nat) :
    let q := p.run cfg (flood polls)
    Waiting q ∧ q.state.orders.seen.length ≤ seenRing ∧ q.state.brake = p.state.brake ∧
      q.deeds = p.deeds ∧
      q.state.orders.seen =
        Ring.pushAll seenRing ((List.range polls).flatMap idsOf) p.state.orders.seen := by
  induction polls with
  | zero => exact ⟨waiting, short, rfl, rfl, rfl⟩
  | succ polls ih =>
      obtain ⟨calm, fits, brake, deeds, seen⟩ := ih
      have splits : p.run cfg (flood (polls + 1)) = (p.run cfg (flood polls)).next cfg
          (.tick (refusing (10 + polls) (idsOf polls) (idsOf_few polls))) := by
        simp [Process.run, flood, List.range_succ]
      rw [splits, refusing_tick calm fits]
      refine ⟨⟨calm.exit, calm.idle, calm.applied, calm.retire⟩, ?_, brake, deeds, ?_⟩
      · show (Ring.pushAll seenRing (idsOf polls) _).length ≤ seenRing
        exact Ring.pushAll_length fits _
      · rw [List.range_succ, List.flatMap_append, List.flatMap_singleton, Ring.pushAll_append, ← seen]

/-- The order that stays open. -/
def liveOrder : Order := ⟨"live", .diagnostics, some 10000⟩

def offering (now : Int) : World :=
  { calmWorld now with
    due := true
    answer := .ok ⟨none, [], [liveOrder], none, Nat.zero_le _, one_le_maxOrders⟩ }

theorem live_not_flooded : "live" ∉ (List.range 16).flatMap idsOf := by
  intro mem
  obtain ⟨poll, -, here⟩ := List.mem_flatMap.mp mem
  obtain ⟨place, -, same⟩ := List.mem_map.mp here
  have lists : List.replicate (poll + 1) 'a' ++ List.replicate (place + 1) 'b' = ['l', 'i', 'v', 'e'] :=
    String.ofList_injective same
  rw [List.replicate_succ, List.cons_append] at lists
  injection lists with first
  exact absurd first (by decide)

/-- One poll of other orders and a restart do not bring the order back. -/
theorem order_offered_again :
    "live" ∉ (carriedIds (((Process.fresh.run oneService []).next oneService
        (.tick (offering 0))).run oneService
          [.tick (refusing 10 ["other"] (by decide)), .restart 20, .tick (offering 1000)]).deeds).drop
      (carriedIds ((Process.fresh.run oneService []).next oneService (.tick (offering 0))).deeds).length := by
  refine order_carried_out_once oneService [] (offering 0) _ "live" {"other"} ?_ ?_ ?_ ?_ ?_
  · decide +kernel
  · intro r flight
    cases flight
  · refine ⟨?_, ?_, trivial, ?_, trivial⟩
    · show ∀ other ∈ idsPut (offering 0) _, _
      decide
    · show ∀ other ∈ idsPut (refusing 10 ["other"] _) _, _
      decide
    · show ∀ other ∈ idsPut (offering 1000) _, _
      decide
  · intro e mem
    simp only [List.mem_cons, List.not_mem_nil, or_false] at mem
    rcases mem with rfl | rfl | rfl
    · trivial
    · trivial
    · trivial
  · decide

/-- An order that is new, that the brake lets through, and that is the only one, is carried out. -/
theorem takeEach_one {busy : Bool} {o : Order} {p : Process}
    (retire : p.state.orders.retire = none) (unseen : o.id ∉ p.state.orders.seen)
    (accepted : refusedAtOnce o w.now = false) (free : (busy && startsRound o.kind) = false)
    (paced : p.state.brake.paced w.now = true)
    (room : (p.state.brake.considered w.now).checkRoom w.now (.order :: asksOf o.kind)
      (restartsOf (p.setState { p.state with brake := p.state.brake.considered w.now }) o.kind) =
        .ok ()) :
    carriedIds (takeEach w busy [o] p).1.deeds = carriedIds p.deeds ++ [o.id] := by
  have took := take_took (w := w) (p := recordAsks (p.setState { p.state with
    brake := p.state.brake.considered w.now }) w.now [.order]) accepted
  have shape : (takeEach w busy [o] p).1 = { (take w o (recordAsks (p.setState { p.state with
      brake := p.state.brake.considered w.now }) w.now [.order])).1 with queue := [] } := by
    unfold takeEach
    rw [retire, if_neg (by simp), if_neg unseen, if_neg (by rw [accepted]; simp),
      if_neg (by rw [free]; simp), if_neg (by rw [paced]; simp)]
    dsimp only [Process.setState] at room ⊢
    rw [room]
    rfl
  rw [shape]
  exact took.carried

/-- A process that waits and does not remember the order carries it out. -/
theorem offering_carried {p : Process} (waiting : Waiting p)
    (brake : p.state.brake = (Process.fresh.next oneService (.tick (offering 0))).state.brake)
    (forgotten : "live" ∉ p.state.orders.seen) :
    carriedIds (p.next oneService (.tick (offering 1000))).deeds = carriedIds p.deeds ++ ["live"] := by
  have stays : ¬ p.exit = true := by rw [waiting.exit]; exact Bool.false_ne_true
  have ticks : carriedIds (p.next oneService (.tick (offering 1000))).deeds =
      carriedIds (attend oneService (offering 1000) p).deeds := by
    refine (closing_carried _).trans ?_
    exact ((acting_untouched stays).trans (performed_untouched (workOf_stepped _))).carried
  have attends : carriedIds (attend oneService (offering 1000) p).deeds =
      carriedIds (takeEach (offering 1000) (busy p.state) [liveOrder]
        { p with queue := [liveOrder] }).1.deeds := answers_carried _ _
  rw [ticks, attends]
  refine takeEach_one (p := { p with queue := [liveOrder] }) waiting.retire forgotten
    (by decide) ?_ ?_ ?_
  · rw [Bool.and_eq_false_iff]
    exact Or.inr (by decide)
  · show p.state.brake.paced 1000 = true
    rw [brake]
    decide
  · show (p.state.brake.considered 1000).checkRoom 1000 [.order] 1 = .ok ()
    rw [brake]
    decide

theorem order_carried_out_twice :
    carriedIds (((Process.fresh.next oneService (.tick (offering 0))).run oneService
      (flood 16)).next oneService (.tick (offering 1000))).deeds = ["live", "live"] := by
  have first : carriedIds (Process.fresh.next oneService (.tick (offering 0))).deeds = ["live"] := by
    decide
  have waiting : Waiting (Process.fresh.next oneService (.tick (offering 0))) :=
    ⟨by decide, by decide, by decide, by decide⟩
  have ring : (Process.fresh.next oneService (.tick (offering 0))).state.orders.seen = ["live"] := by
    decide +kernel
  have short : (Process.fresh.next oneService (.tick (offering 0))).state.orders.seen.length ≤
      seenRing := by
    decide +kernel
  obtain ⟨calm, -, brake, deeds, seen⟩ := flood_run oneService waiting short 16
  have forgotten : "live" ∉ ((Process.fresh.next oneService (.tick (offering 0))).run oneService
      (flood 16)).state.orders.seen := by
    rw [seen, ring, Ring.pushAll_new (by decide +kernel) idsOf_nodup ?_]
    · have cap : (["live"] ++ (List.range 16).flatMap idsOf).length - seenRing = 1 := by
        simp [idsOf, seenRing, maxOrders]
      rw [cap]
      exact live_not_flooded
    · intro id mem
      rw [List.mem_singleton]
      rintro rfl
      exact live_not_flooded mem
  rw [offering_carried calm brake forgotten, deeds, first]
  rfl

end OmarchyPool.Agent
