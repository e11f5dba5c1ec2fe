/-
# OmarchyPool.Lib.Process -- one process that may die between any two statements

A `Machine` is a process that runs alone: it boots, then takes one turn after another, each a
program of atomic statements over a store.  Between any two statements an event of the world
around it may happen, or the process may die; what `die` leaves of the store is where it boots
again.  A boot that fails is tried again.

`reached_spec` is its rule: where the boot and the turns meet a contract that every event relies on
and every death keeps, the invariant holds in every state reached, and what is left of the program
meets the rest of its contract.  `Reached.invariant` adds an invariant that follows from what the
statements guarantee, with nothing known of the program.
-/
import OmarchyPool.Lib.Program

namespace OmarchyPool.Lib

set_option autoImplicit false

structure Machine (σ ℓ ε η : Type) where
  boot : Program σ ℓ ε Unit
  turn : Program σ ℓ ε Unit
  die : σ → σ
  happen : η → σ → σ

/-- The store and what is left of the program. -/
structure Machine.State (σ ℓ ε : Type) where
  store : σ
  rest : Program σ ℓ ε Unit

inductive Machine.Step (η : Type) where
  | run
  | event (what : η)
  | die
  deriving DecidableEq

namespace Machine

variable {σ ℓ ε η : Type} (m : Machine σ ℓ ε η)

/-- One statement; at the end of a turn the next one, at a failed boot another. -/
def advance (c : State σ ℓ ε) : State σ ℓ ε :=
  match c.rest with
  | .stmt _ write next => ⟨write c.store, next c.store⟩
  | .pure _ => ⟨c.store, m.turn⟩
  | .fail _ => ⟨c.store, m.boot⟩

def step (c : State σ ℓ ε) : Step η → State σ ℓ ε
  | .run => m.advance c
  | .event what => ⟨m.happen what c.store, c.rest⟩
  | .die => ⟨m.die c.store, m.boot⟩

/-- The next statement may be taken. -/
def State.Allows (meets : ℓ → σ → Prop) (c : State σ ℓ ε) : Prop :=
  ∀ label, c.rest.pending = some label → meets label c.store

/-- Every state of a run from `init`, each statement taken where `meets` holds. -/
inductive Reached (meets : ℓ → σ → Prop) (init : σ) : State σ ℓ ε → Prop where
  | start : Reached meets init ⟨init, m.boot⟩
  | run {c : State σ ℓ ε} : Reached meets init c → c.Allows meets → Reached meets init (m.advance c)
  | event {c : State σ ℓ ε} (what : η) : Reached meets init c →
      Reached meets init ⟨m.happen what c.store, c.rest⟩
  | die {c : State σ ℓ ε} : Reached meets init c → Reached meets init ⟨m.die c.store, m.boot⟩

/-! ### A given list of steps -/

section Steps

variable (meets : ℓ → σ → Prop) [∀ label s, Decidable (meets label s)]

def State.allows (c : State σ ℓ ε) : Step η → Bool
  | .run =>
      match c.rest.pending with
      | some label => decide (meets label c.store)
      | none => true
  | _ => true

def allowsAll (c : State σ ℓ ε) : List (Step η) → Bool
  | [] => true
  | s :: rest => c.allows meets s && allowsAll (m.step c s) rest

variable {m meets}

/-- A list of steps that are each allowed leads to a state of a run. -/
theorem Reached.steps {init : σ} {c : State σ ℓ ε} (reached : m.Reached meets init c) (steps : List (Step η))
    (checked : allowsAll m meets c steps = true) : m.Reached meets init (steps.foldl m.step c) := by
  induction steps generalizing c with
  | nil => exact reached
  | cons s rest ih =>
      simp only [allowsAll, Bool.and_eq_true] at checked
      refine ih ?_ checked.2
      cases s with
      | event what => exact .event what reached
      | die => exact .die reached
      | run =>
          refine .run reached fun label standing => ?_
          simpa [State.allows, standing] using checked.1

end Steps

/-! ### The rule -/

section Rule

variable {m} {c : Contract σ ℓ} {rested : σ → Prop}

/-- A turn ends, and a boot that went through ends, where the process rests. -/
def Rests (rested : σ → Prop) : Except ε Unit → σ → Prop
  | .ok _, s => rested s
  | .error _, _ => True

/-- What the boot, the turns, the events and the deaths keep between them. -/
structure Keeps (m : Machine σ ℓ ε η) (c : Contract σ ℓ) (rested : σ → Prop) : Prop where
  quiet : ∀ s, c.rely s s
  trans : ∀ a b d, c.rely a b → c.rely b d → c.rely a d
  happens : ∀ what s, c.inv s → c.inv (m.happen what s) ∧ c.rely s (m.happen what s)
  dies : ∀ s, c.inv s → c.inv (m.die s)
  stays : ∀ s t, c.rely s t → rested s → rested t
  boots : ∀ s, c.inv s → m.boot.Spec c s (Rests rested)
  turns : ∀ s, c.inv s → rested s → m.turn.Spec c s (Rests rested)

/-- What is left of the program meets the rest of its contract. -/
def Underway (c : Contract σ ℓ) (rested : σ → Prop) (state : State σ ℓ ε) : Prop :=
  ∃ seen, c.rely seen state.store ∧ state.rest.Spec c seen (Rests rested)

/-- The end of a turn that has ended. -/
theorem Underway.ended (keeps : Keeps m c rested) {state : State σ ℓ ε} {value : Unit}
    (underway : Underway c rested state) (isOver : state.rest = .pure value) : rested state.store := by
  obtain ⟨seen, relied, spec⟩ := underway
  rw [isOver] at spec
  exact keeps.stays _ _ relied spec

theorem advance_underway (keeps : Keeps m c rested) {state : State σ ℓ ε} (inv : c.inv state.store)
    (underway : Underway c rested state) (allowed : state.Allows c.meets) :
    c.inv (m.advance state).store ∧ Underway c rested (m.advance state) := by
  unfold advance
  split
  · rename_i label write next standing
    obtain ⟨seen, relied, spec⟩ := underway
    rw [standing] at spec
    obtain ⟨kept, -, after⟩ := spec state.store relied inv (allowed label (by rw [standing]; rfl))
    exact ⟨kept, _, keeps.quiet _, after⟩
  · rename_i value standing
    exact ⟨inv, _, keeps.quiet _, keeps.turns _ inv (underway.ended keeps standing)⟩
  · exact ⟨inv, _, keeps.quiet _, keeps.boots _ inv⟩

theorem reached_spec (keeps : Keeps m c rested) {init : σ} (start : c.inv init) {state : State σ ℓ ε}
    (reached : m.Reached c.meets init state) : c.inv state.store ∧ Underway c rested state := by
  induction reached with
  | start => exact ⟨start, _, keeps.quiet _, keeps.boots _ start⟩
  | run _ allowed ih => exact advance_underway keeps ih.1 ih.2 allowed
  | @event state what _ ih =>
      obtain ⟨inv, seen, relied, spec⟩ := ih
      obtain ⟨kept, moved⟩ := keeps.happens what state.store inv
      exact ⟨kept, seen, keeps.trans _ _ _ relied moved, spec⟩
  | die _ ih => exact ⟨keeps.dies _ ih.1, _, keeps.quiet _, keeps.boots _ (keeps.dies _ ih.1)⟩

/-- A statement of a run keeps the guarantee. -/
theorem advance_guar {state : State σ ℓ ε} (inv : c.inv state.store)
    (underway : Underway c rested state) (allowed : state.Allows c.meets) :
    (m.advance state).store = state.store ∨ c.guar state.store (m.advance state).store := by
  unfold advance
  split
  · rename_i label write next standing
    obtain ⟨seen, relied, spec⟩ := underway
    rw [standing] at spec
    exact .inr (spec state.store relied inv (allowed label (by rw [standing]; rfl))).2.1
  · exact .inl rfl
  · exact .inl rfl

/-- What every guaranteed statement, every event and every death keep holds throughout. -/
theorem Reached.invariant (keeps : Keeps m c rested) (J : σ → Prop) {init : σ} (start : c.inv init)
    (starts : J init) (guaranteed : ∀ s t, c.inv s → J s → c.guar s t → J t)
    (happens : ∀ what s, c.inv s → J s → J (m.happen what s)) (dies : ∀ s, c.inv s → J s → J (m.die s))
    {state : State σ ℓ ε} (reached : m.Reached c.meets init state) : J state.store := by
  induction reached with
  | start => exact starts
  | @run state before allowed ih =>
      obtain ⟨inv, underway⟩ := reached_spec keeps start before
      rcases advance_guar (m := m) inv underway allowed with same | did
      · rw [same]
        exact ih
      · exact guaranteed _ _ inv ih did
  | event what before ih => exact happens what _ (reached_spec keeps start before).1 ih
  | die before ih => exact dies _ (reached_spec keeps start before).1 ih

end Rule

end Machine

end OmarchyPool.Lib
