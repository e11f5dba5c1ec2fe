/-
# OmarchyPool.Lib.CrashSafe -- steps that may stop anywhere

A program is a list of atomic steps, each of which may fail.  `CrashSafe P steps C Q` is its
triple with a crash condition: from `P`, wherever the steps stop, before, between or after any two
of them, `C` holds, and where all of them went through, `Q` does.  The rules build the triple from
what one step does; `flatMap` is the one for a loop, with an invariant of the items that are done.
-/
import Mathlib.Data.List.Basic

namespace OmarchyPool.Lib

set_option autoImplicit false

/-- An atomic step; `none` when it fails. -/
abbrev Step (σ : Type) := σ → Option σ

section Steps

variable {σ ι : Type}

def runSteps : List (Step σ) → σ → Option σ
  | [], s => some s
  | step :: rest, s => (step s).bind (runSteps rest)

/-- Some of the steps, from the first on, went through. -/
def Stopped (steps : List (Step σ)) (s s' : σ) : Prop := ∃ k, runSteps (steps.take k) s = some s'

theorem runSteps_append (front back : List (Step σ)) (s : σ) :
    runSteps (front ++ back) s = (runSteps front s).bind (runSteps back) := by
  induction front generalizing s with
  | nil => rfl
  | cons step rest ih =>
      show (step s).bind (runSteps (rest ++ back)) = ((step s).bind (runSteps rest)).bind _
      cases step s with
      | none => rfl
      | some next => exact ih next

structure CrashSafe (P : σ → Prop) (steps : List (Step σ)) (C Q : σ → Prop) : Prop where
  stops : ∀ s s', P s → Stopped steps s s' → C s'
  ends : ∀ s s', P s → runSteps steps s = some s' → Q s'

variable {P Q R C : σ → Prop} {steps : List (Step σ)}

theorem CrashSafe.nil (stops : ∀ s, P s → C s) (ends : ∀ s, P s → Q s) : CrashSafe P [] C Q where
  stops := by
    rintro s s' holds ⟨k, ran⟩
    rw [List.take_nil] at ran
    cases ran
    exact stops s holds
  ends := by
    intro s s' holds ran
    cases ran
    exact ends s holds

theorem CrashSafe.cons {step : Step σ} (stops : ∀ s, P s → C s)
    (goes : ∀ s s', P s → step s = some s' → R s') (rest : CrashSafe R steps C Q) :
    CrashSafe P (step :: steps) C Q where
  stops := by
    rintro s s' holds ⟨k, ran⟩
    cases k with
    | zero =>
        cases ran
        exact stops s holds
    | succ k =>
        obtain ⟨next, went, after⟩ := Option.bind_eq_some_iff.mp ran
        exact rest.stops next s' (goes s next holds went) ⟨k, after⟩
  ends := by
    intro s s' holds ran
    obtain ⟨next, went, after⟩ := Option.bind_eq_some_iff.mp ran
    exact rest.ends next s' (goes s next holds went) after

theorem CrashSafe.append {front back : List (Step σ)} (first : CrashSafe P front C R)
    (second : CrashSafe R back C Q) : CrashSafe P (front ++ back) C Q where
  stops := by
    rintro s s' holds ⟨k, ran⟩
    rw [List.take_append] at ran
    by_cases within : k ≤ front.length
    · rw [Nat.sub_eq_zero_of_le within, List.take_zero, List.append_nil] at ran
      exact first.stops s s' holds ⟨k, ran⟩
    · rw [List.take_of_length_le (Nat.le_of_not_le within), runSteps_append] at ran
      obtain ⟨between, went, after⟩ := Option.bind_eq_some_iff.mp ran
      exact second.stops between s' (first.ends s between holds went) ⟨_, after⟩
  ends := by
    intro s s' holds ran
    rw [runSteps_append] at ran
    obtain ⟨between, went, after⟩ := Option.bind_eq_some_iff.mp ran
    exact second.ends between s' (first.ends s between holds went) after

theorem CrashSafe.mono {P' Q' : σ → Prop} (safe : CrashSafe P steps C Q) (before : ∀ s, P' s → P s)
    (after : ∀ s, Q s → Q' s) : CrashSafe P' steps C Q' where
  stops := fun s s' holds => safe.stops s s' (before s holds)
  ends := fun s s' holds ran => after s' (safe.ends s s' (before s holds) ran)

/-- What every step keeps. -/
theorem CrashSafe.keeps (stops : ∀ s, P s → C s)
    (each : ∀ step ∈ steps, ∀ s s', P s → step s = some s' → P s') : CrashSafe P steps C P := by
  induction steps with
  | nil => exact .nil stops fun _ holds => holds
  | cons step rest ih =>
      exact .cons stops (each step List.mem_cons_self)
        (ih fun other mem => each other (List.mem_cons_of_mem _ mem))

/-- A loop over items, with what holds when those in `done` are. -/
theorem CrashSafe.flatMap {body : ι → List (Step σ)} {I : List ι → σ → Prop} (items : List ι)
    (stops : ∀ s, I items s → C s)
    (each : ∀ done item rest, items = done ++ item :: rest →
      CrashSafe (I done) (body item) C (I (done ++ [item]))) :
    CrashSafe (I []) (items.flatMap body) C (I items) := by
  have later : ∀ todo done, items = done ++ todo →
      CrashSafe (I done) (todo.flatMap body) C (I items) := by
    intro todo
    induction todo with
    | nil =>
        intro done all
        rw [List.append_nil] at all
        subst all
        exact .nil stops fun _ holds => holds
    | cons item rest ih =>
        intro done all
        rw [List.flatMap_cons]
        refine (each done item rest all).append (ih (done ++ [item]) ?_)
        rw [all, List.append_assoc, List.singleton_append]
  exact later items [] rfl

end Steps

end OmarchyPool.Lib
