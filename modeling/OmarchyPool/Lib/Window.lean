/-
# OmarchyPool.Lib.Window -- counting what happened lately

A limiter keeps the times of what it let through and forgets the ones that left its window.
Two things are asked of it.  What it forgets must not matter: at any later time the times it
kept count for as much as the whole history would (`Tracks`, `tracks_record`).  And a limit
that is looked at whenever a time is added (`Paced`) must be a limit on every window, wherever
that window begins (`Paced.window_le`).

Histories are written newest first: the newest time is the one the limit was last looked at for.

Where the clocks that look at the limit need not agree, a limiter counts whatever is not too old
by the clock of what it lets through (`Trailing`), and that too is a limit on every window
(`Trailing.window_le`, over real intervals `Trailing.countIn_le`): of what lies in one, the last
let through saw all the others.
-/
import Mathlib.Data.List.Basic
import Mathlib.Algebra.Order.Group.Int
import Mathlib.Data.Real.Basic
import Mathlib.Tactic.Linarith
import Mathlib.Tactic.NormNum
import Mathlib.Tactic.Common

namespace OmarchyPool.Lib

set_option autoImplicit false

namespace Window

/-- How many of `times` lie within `width` of `now`, on either side of it. -/
def within (width now : Int) (times : List Int) : Nat :=
  times.countP fun t => decide (now - t < width) && decide (t - now < width)

/-- The times that lie within `width` of `now`, then `now` itself. -/
def record (width now : Int) (times : List Int) : List Int :=
  times.filter (fun t => decide (now - t < width) && decide (t - now < width)) ++ [now]

/-- From `now` on, `kept` counts for as much as `history` does. -/
def Tracks (width now : Int) (kept history : List Int) : Prop :=
  ∀ later, now ≤ later → within width later kept = within width later history

/-- Whenever a time was added there were fewer than `limit` within `width` before it. -/
def Paced (limit : Nat) (width : Int) : List Int → Prop
  | [] => True
  | t :: earlier =>
      Paced limit width earlier ∧ (∀ s ∈ earlier, s ≤ t) ∧ within width t earlier < limit

/-! ## What is forgotten does not count again -/

theorem within_cons (width now t : Int) (times : List Int) :
    within width now (t :: times) =
      within width now times + if now - t < width ∧ t - now < width then 1 else 0 := by
  simp only [within, List.countP_cons, Bool.and_eq_true, decide_eq_true_eq]

theorem within_append (width now : Int) (times others : List Int) :
    within width now (times ++ others) = within width now times + within width now others := by
  simp only [within, List.countP_append]

theorem within_le_of_le {width now later : Int} {times : List Int} (notBack : now ≤ later)
    (past : ∀ t ∈ times, t ≤ now) : within width later times ≤ within width now times := by
  apply List.countP_mono_left
  intro t mem counts
  have before := past t mem
  simp only [Bool.and_eq_true, decide_eq_true_eq] at counts ⊢
  omega

theorem Tracks.later {width now later : Int} {kept history : List Int}
    (tracks : Tracks width now kept history) (notBack : now ≤ later) :
    Tracks width later kept history :=
  fun time after => tracks time (le_trans notBack after)

theorem tracks_record {width now : Int} {kept history : List Int}
    (tracks : Tracks width now kept history) (past : ∀ t ∈ kept, t ≤ now) :
    Tracks width now (record width now kept) (now :: history) := by
  intro later after
  have same : within width later (kept.filter fun t =>
      decide (now - t < width) && decide (t - now < width)) = within width later kept := by
    unfold within
    rw [List.countP_filter]
    apply List.countP_congr
    intro t mem
    have before := past t mem
    simp only [Bool.and_eq_true, decide_eq_true_eq]
    omega
  rw [record, within_append, same, tracks later after, within_cons]
  simp only [within_cons, Nat.add_left_cancel_iff]
  simp only [within, List.countP_nil, Nat.zero_add]

theorem mem_record {width now t : Int} {times : List Int} (mem : t ∈ record width now times) :
    t ∈ times ∨ t = now := by
  rw [record, List.mem_append, List.mem_singleton] at mem
  exact mem.imp_left List.mem_of_mem_filter

/-! ## The limit on every window -/

/-- Every half-open window as wide as the limiter's holds no more than its limit. -/
theorem Paced.window_le {limit : Nat} {width : Int} {history : List Int}
    (paced : Paced limit width history) (start : Int) :
    history.countP (fun t => decide (start ≤ t) && decide (t < start + width)) ≤ limit := by
  induction history with
  | nil => exact Nat.zero_le _
  | cons t earlier ih =>
      obtain ⟨before, past, room⟩ := paced
      by_cases inside : start ≤ t ∧ t < start + width
      · -- What else is in the window was still counted when `t` was let through.
        have counted : earlier.countP (fun s => decide (start ≤ s) && decide (s < start + width)) ≤
            within width t earlier := by
          apply List.countP_mono_left
          intro s mem holds
          have order := past s mem
          simp only [Bool.and_eq_true, decide_eq_true_eq] at holds ⊢
          omega
        rw [List.countP_cons_of_pos (by simpa using inside)]
        omega
      · rw [List.countP_cons_of_neg (by simpa using inside)]
        exact ih before

/-- A limit of one keeps any two times a window apart. -/
theorem Paced.apart {width : Int} {history : List Int} (paced : Paced 1 width history) :
    history.Pairwise fun later earlier => earlier + width ≤ later := by
  induction history with
  | nil => exact List.Pairwise.nil
  | cons t earlier ih =>
      obtain ⟨before, past, room⟩ := paced
      refine List.pairwise_cons.mpr ⟨?_, ih before⟩
      intro s mem
      by_contra close
      have order := past s mem
      have counts : 0 < within width t earlier := by
        apply List.countP_pos_iff.mpr
        refine ⟨s, mem, ?_⟩
        simp only [Bool.and_eq_true, decide_eq_true_eq]
        omega
      omega

/-! ## Clocks that need not agree -/

section Trailing

variable {α : Type} {time : α → Int} {counted inside : α → Bool} {limit : Nat} {width : Int}

/-- Whatever was let through saw fewer than `limit` that were not `width` older than itself. -/
def Trailing (time : α → Int) (counted : α → Bool) (limit : Nat) (width : Int) : List α → Prop
  | [] => True
  | x :: earlier =>
      Trailing time counted limit width earlier ∧
        (counted x = true →
          earlier.countP (fun y => counted y && decide (time x - width < time y)) < limit)

/-- A set of instants no two of which are `width` apart holds no more than the limit. -/
theorem Trailing.window_le {history : List α} (trailing : Trailing time counted limit width history)
    (narrow : ∀ x y, inside x = true → inside y = true → time x - width < time y) :
    history.countP (fun x => counted x && inside x) ≤ limit := by
  induction history with
  | nil => exact Nat.zero_le _
  | cons x earlier ih =>
      obtain ⟨before, room⟩ := trailing
      by_cases holds : (counted x && inside x) = true
      · -- Whatever else is in the window was counted when `x` was let through.
        obtain ⟨isCounted, isInside⟩ := Bool.and_eq_true_iff.mp holds
        have seen : earlier.countP (fun y => counted y && inside y) ≤
            earlier.countP (fun y => counted y && decide (time x - width < time y)) := by
          apply List.countP_mono_left
          intro y _ both
          obtain ⟨yCounted, yInside⟩ := Bool.and_eq_true_iff.mp both
          rw [yCounted, Bool.true_and, decide_eq_true_eq]
          exact narrow x y isInside yInside
        rw [List.countP_cons_of_pos (p := fun x => counted x && inside x) holds]
        exact Nat.succ_le_of_lt (lt_of_le_of_lt seen (room isCounted))
      · rw [List.countP_cons_of_neg (p := fun x => counted x && inside x) holds]
        exact ih before

/-- A real interval of the width, with one of its ends. -/
def IsWindow (width : Int) (window : Set ℝ) : Prop :=
  ∃ start : ℝ, window = Set.Ico start (start + width) ∨ window = Set.Ioc start (start + width)

theorem IsWindow.narrow {window : Set ℝ} (is : IsWindow width window) {s t : Int}
    (first : (s : ℝ) ∈ window) (second : (t : ℝ) ∈ window) : s - width < t := by
  have real : (s : ℝ) - width < t := by
    obtain ⟨start, rfl | rfl⟩ := is
    · have low := second.1
      have high := first.2
      linarith
    · have low := second.1
      have high := first.2
      linarith
  exact_mod_cast real

open Classical in
/-- How many of the counted lie in the window. -/
noncomputable def countIn (time : α → Int) (counted : α → Bool) (window : Set ℝ)
    (history : List α) : Nat :=
  history.countP fun x => counted x && decide ((time x : ℝ) ∈ window)

open Classical in
theorem Trailing.countIn_le {history : List α} (trailing : Trailing time counted limit width history)
    {window : Set ℝ} (is : IsWindow width window) : countIn time counted window history ≤ limit := by
  refine trailing.window_le ?_
  intro x y inX inY
  exact is.narrow (of_decide_eq_true inX) (of_decide_eq_true inY)

end Trailing

/-! ## A limiter along a run -/

/-- What a limiter keeps at `now` stands for a history it paced. -/
structure Counts (limit : Nat) (width now : Int) (kept history : List Int) : Prop where
  tracks : Tracks width now kept history
  kept_past : ∀ t ∈ kept, t ≤ now
  past : ∀ t ∈ history, t ≤ now
  paced : Paced limit width history

theorem counts_nil (limit : Nat) (width now : Int) : Counts limit width now [] [] :=
  ⟨fun _ _ => rfl, by simp, by simp, trivial⟩

theorem Counts.later {limit : Nat} {width now time : Int} {kept history : List Int}
    (counts : Counts limit width now kept history) (notBack : now ≤ time) :
    Counts limit width time kept history where
  tracks := counts.tracks.later notBack
  kept_past := fun t mem => le_trans (counts.kept_past t mem) notBack
  past := fun t mem => le_trans (counts.past t mem) notBack
  paced := counts.paced

theorem Counts.record {limit : Nat} {width now : Int} {kept history : List Int}
    (counts : Counts limit width now kept history) (room : within width now kept < limit) :
    Counts limit width now (Window.record width now kept) (now :: history) where
  tracks := tracks_record counts.tracks counts.kept_past
  kept_past := by
    intro t mem
    rcases mem_record mem with old | rfl
    · exact counts.kept_past t old
    · exact le_refl t
  past := by
    intro t mem
    rcases List.mem_cons.mp mem with rfl | old
    · exact le_refl t
    · exact counts.past t old
  paced := by
    refine ⟨counts.paced, counts.past, ?_⟩
    rw [← counts.tracks now (le_refl now)]
    exact room

/-- What was just recorded counts for one. -/
theorem Counts.within_record {limit : Nat} {width now : Int} {kept history : List Int}
    (counts : Counts limit width now kept history) :
    within width now (Window.record width now kept) ≤ within width now kept + 1 := by
  rw [tracks_record counts.tracks counts.kept_past now (le_refl now), within_cons,
    counts.tracks now (le_refl now)]
  split <;> omega

end Window

end OmarchyPool.Lib
