/-
# OmarchyPool.Agent.Brake -- how fast the pool may make this host change

The brake counts, by kind, what the pool made the host do within a window: an hour for the
orders, the dispatcher's restarts and the narrowings, ten minutes for a change of release.
What is asked is looked at first (`checkRoom`) and counted when it happens (`record`), and the
two need not be in the same tick.
-/
import OmarchyPool.Agent.State
import OmarchyPool.Lib.Window

namespace OmarchyPool.Agent

open OmarchyPool.Lib

set_option autoImplicit false

def orderGapS : Int := 2
def ordersPerHour : Nat := 20
def restartsPerHour : Nat := 6
def releaseGapS : Int := 600
def narrowingsPerHour : Nat := 4
/-- The restarts a round to another release may make: its replace, and its revert's. -/
def roundRestarts : Nat := 2
def hourS : Int := 3600

inductive Ask where
  | order
  | restart
  | release
  | narrowing
  deriving DecidableEq

namespace Brake

def window : Ask → Int
  | .release => releaseGapS
  | .order | .restart | .narrowing => hourS

def times (b : Brake) : Ask → List Int
  | .order => b.orders
  | .restart => b.restarts
  | .release => b.releases
  | .narrowing => b.narrowings

def setTimes (b : Brake) (a : Ask) (times : List Int) : Brake :=
  match a with
  | .order => { b with orders := times }
  | .restart => { b with restarts := times }
  | .release => { b with releases := times }
  | .narrowing => { b with narrowings := times }

/-- A time ahead of `now` counts too, unless it is more than a window ahead. -/
def count (b : Brake) (a : Ask) (now : Int) : Nat := Window.within (window a) now (b.times a)

def limit : Ask → Nat
  | .order => ordersPerHour
  | .restart => restartsPerHour
  | .release => 1
  | .narrowing => narrowingsPerHour

/-- Whether the next host order may be taken now. -/
def paced (b : Brake) (now : Int) : Bool :=
  match b.lastOrder with
  | none => true
  | some t => decide (now - t ≥ orderGapS) || decide (t - now > hourS)

/-- The room one of the asks needs: `restarts` restarts of the dispatcher, one of the others. -/
def room (restarts : Nat) (a : Ask) : Nat := if a = .restart then max restarts 1 else 1

/-- The first of `asks` that is spent now, as the refusal names it. -/
def checkRoom (b : Brake) (now : Int) (asks : List Ask) (restarts : Nat) : Except Ask Unit :=
  match asks with
  | [] => .ok ()
  | a :: rest =>
      if b.count a now + room restarts a > limit a then .error a
      else checkRoom b now rest restarts

def check (b : Brake) (now : Int) (asks : List Ask) : Except Ask Unit := b.checkRoom now asks 1

def record (b : Brake) (now : Int) (asks : List Ask) : Brake :=
  asks.foldl (fun b a => b.setTimes a (Window.record (window a) now (b.times a))) b

def considered (b : Brake) (now : Int) : Brake := { b with lastOrder := some now }

/-! ## What a check promises, and what a record leaves -/

theorem checkRoom_ok {b : Brake} {now : Int} {asks : List Ask} {restarts : Nat}
    (ok : b.checkRoom now asks restarts = .ok ()) :
    ∀ a ∈ asks, b.count a now + room restarts a ≤ limit a := by
  induction asks with
  | nil => intro a mem; cases mem
  | cons first rest ih =>
      simp only [checkRoom] at ok
      split at ok
      · cases ok
      · rename_i fits
        intro a mem
        rcases List.mem_cons.mp mem with rfl | later
        · omega
        · exact ih ok a later

@[simp] theorem times_setTimes (b : Brake) (a other : Ask) (times : List Int) :
    (b.setTimes a times).times other = if a = other then times else b.times other := by
  cases a <;> cases other <;> rfl

@[simp] theorem lastRelease_setTimes (b : Brake) (a : Ask) (times : List Int) :
    (b.setTimes a times).lastRelease = b.lastRelease := by
  cases a <;> rfl

@[simp] theorem times_considered (b : Brake) (now : Int) (a : Ask) :
    (b.considered now).times a = b.times a := by
  cases a <;> rfl

@[simp] theorem lastRelease_considered (b : Brake) (now : Int) :
    (b.considered now).lastRelease = b.lastRelease := rfl

theorem times_record (b : Brake) (now : Int) (asks : List Ask) (once : asks.Nodup) (a : Ask) :
    (b.record now asks).times a =
      if a ∈ asks then Window.record (window a) now (b.times a) else b.times a := by
  induction asks generalizing b with
  | nil => rfl
  | cons first rest ih =>
      obtain ⟨fresh, once⟩ := List.nodup_cons.mp once
      simp only [record, List.foldl_cons] at ih ⊢
      rw [ih _ once, times_setTimes]
      by_cases here : first = a
      · subst here
        simp only [if_neg fresh, if_true, List.mem_cons_self]
      · have mem : a ∈ first :: rest ↔ a ∈ rest := by
          simp only [List.mem_cons, Ne.symm here, false_or]
        simp only [if_neg here, mem]

@[simp] theorem lastRelease_record (b : Brake) (now : Int) (asks : List Ask) :
    (b.record now asks).lastRelease = b.lastRelease := by
  induction asks generalizing b with
  | nil => rfl
  | cons first rest ih =>
      simp only [record, List.foldl_cons] at ih ⊢
      rw [ih, lastRelease_setTimes]

end Brake

end OmarchyPool.Agent
