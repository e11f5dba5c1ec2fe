/-
# OmarchyPool.WorkerOrders.Chain -- what the rules wrote, one value after another

The rules' counts are one value on the worker's row, re-based at every new spell while its list of
the last day goes on.  `Chain` is the list of what was written, newest first: every value follows
from the one before it by a step of the rules.  From that alone come the day's bounds
(`restarts_trailing`, `rechecks_trailing`), the spell's (`restarts_per_spell`, `restarts_apart`),
the give-up's (`giveUp_last`), and that no value is ever written twice (`value_ne`).
-/
import Mathlib.Data.List.Infix
import Mathlib.Data.List.Pairwise
import OmarchyPool.Lib.Window
import OmarchyPool.WorkerOrders.Rules

namespace OmarchyPool.WorkerOrders

set_option autoImplicit false

open Lib

/-! ## What was written -/

/-- A write of the rules' state: the order's kind, or none for the give-up; the claim's time; the
spells the worker had had when the claim read its row, the one it was in first. -/
structure Written where
  kind : Option OrderKind
  time : Int
  spells : List Int
  value : AutoState

namespace Written

def spell (e : Written) : Option Int := e.spells.head?

def isRestart (e : Written) : Bool := e.kind.any (·.restartType)

def isRecheck (e : Written) : Bool := e.kind = some .recheckAgent

def isGiveUp (e : Written) : Bool := e.kind = none

/-- What the write adds to the day's list. -/
def marks (e : Written) : List AutoMark :=
  if e.isRestart then [⟨.r, e.time⟩] else if e.isRecheck then [⟨.c, e.time⟩] else []

end Written

/-- The value the newest write left. -/
def lastValue (log : List Written) : Option AutoState := log.head?.map (·.value)

/-- `e` is a step of the rules from the value the writes before it left. -/
def Follows (earlier : List Written) (e : Written) : Prop :=
  ∃ spell, e.spell = some spell ∧ (autoOf (lastValue earlier) (some spell) e.time).gaveUp = none ∧
    Step (autoOf (lastValue earlier) (some spell) e.time) spell e.time e.kind e.value

/-- Newest first: each write follows from the one before it, no earlier, and no spell comes back. -/
def Chain : List Written → Prop
  | [] => True
  | e :: earlier =>
      Chain earlier ∧ Follows earlier e ∧ e.spells.Nodup ∧
        ∀ p ∈ earlier, p.time ≤ e.time ∧ p.spells <:+ e.spells

/-! ## The day's list -/

theorem autoOf_spell (v : Option AutoState) (spell : Option Int) (now : Int) :
    (autoOf v spell now).spell = spell := by
  unfold autoOf
  split
  · rfl
  · dsimp only
    split
    · assumption
    · rfl

theorem autoOf_day (v : Option AutoState) (spell : Option Int) (now : Int) :
    (autoOf v spell now).day =
      (v.elim [] (·.day)).filter fun d => decide (now - d.time < day) := by
  unfold autoOf
  split
  · rfl
  · dsimp only
    split <;> rfl

/-- A write adds its own mark to what the day still holds. -/
theorem Step.day_eq {auto : AutoState} {spell now : Int} {kind : Option OrderKind} {next : AutoState}
    (step : Step auto spell now kind next) (spells : List Int) (value : AutoState) :
    next.day = auto.day ++ (Written.marks ⟨kind, now, spells, value⟩) := by
  cases step with
  | recheck _ _ _ _ => rfl
  | restart isRestart _ _ _ _ =>
      have marked : Written.isRestart ⟨some _, now, spells, value⟩ = true := isRestart
      rw [Written.marks, if_pos marked]
      rfl
  | giveUp _ => exact (List.append_nil _).symm

/-- Every mark ever made, oldest first. -/
def allMarks (log : List Written) : List AutoMark := log.reverse.flatMap (·.marks)

theorem allMarks_cons (e : Written) (earlier : List Written) :
    allMarks (e :: earlier) = allMarks earlier ++ e.marks := by
  simp [allMarks, List.flatMap_append]

theorem marks_time {e : Written} {d : AutoMark} (mem : d ∈ e.marks) : d.time = e.time := by
  unfold Written.marks at mem
  split at mem
  · rw [List.mem_singleton.mp mem]
  · split at mem
    · rw [List.mem_singleton.mp mem]
    · cases mem

theorem Step.mark {auto : AutoState} {spell now : Int} {kind : Option OrderKind} {next : AutoState}
    (step : Step auto spell now kind next) (isOrder : kind ≠ none) (spells : List Int)
    (value : AutoState) : ∃ k, Written.marks ⟨kind, now, spells, value⟩ = [⟨k, now⟩] := by
  cases step with
  | recheck _ _ _ _ => exact ⟨.c, rfl⟩
  | restart isRestart _ _ _ _ => exact ⟨.r, if_pos isRestart⟩
  | giveUp _ => exact absurd rfl isOrder

/-- What a claim reads of the day's list is the marks of the last day. -/
theorem Chain.day_before {log : List Written} (chain : Chain log) (spell : Option Int) {now : Int}
    (late : ∀ p ∈ log, p.time ≤ now) :
    (autoOf (lastValue log) spell now).day =
      (allMarks log).filter fun d => decide (now - d.time < day) := by
  induction log generalizing spell now with
  | nil => rfl
  | cons e earlier ih =>
      obtain ⟨before, ⟨own, _, _, step⟩, _, order⟩ := chain
      have value : e.value.day =
          (allMarks earlier).filter (fun d => decide (e.time - d.time < day)) ++ e.marks := by
        rw [step.day_eq e.spells e.value, ih before (some own) fun p mem => (order p mem).1]
      have notBack := late e List.mem_cons_self
      rw [autoOf_day]
      show e.value.day.filter _ = _
      rw [value, allMarks_cons, List.filter_append, List.filter_append, List.filter_filter]
      congr 1
      apply List.filter_congr
      intro d _
      rw [← Bool.decide_and, decide_eq_decide]
      omega

theorem countP_allMarks {counted : Written → Bool} {marked : AutoMark → Bool}
    (one : ∀ e : Written, e.marks.countP marked = if counted e then 1 else 0) (log : List Written) :
    (allMarks log).countP marked = log.countP counted := by
  induction log with
  | nil => rfl
  | cons e earlier ih => rw [allMarks_cons, List.countP_append, ih, one, List.countP_cons]

theorem dayOf_before {log : List Written} (chain : Chain log) (spell : Option Int) {now : Int}
    (late : ∀ p ∈ log, p.time ≤ now) (k : AutoKind) (counted : Written → Bool)
    (kindOf : ∀ e : Written, e.marks.countP (fun d => d.k = k) = if counted e then 1 else 0) :
    (autoOf (lastValue log) spell now).dayOf k =
      log.countP fun e => counted e && decide (now - day < e.time) := by
  rw [AutoState.dayOf, chain.day_before spell late, List.countP_filter]
  apply countP_allMarks
  intro e
  have same : e.marks.countP (fun d => decide (d.k = k) && decide (now - d.time < day)) =
      e.marks.countP (fun d => decide (d.k = k) && decide (now - day < e.time)) := by
    apply List.countP_congr
    intro d mem
    have shifted : now - e.time < day ↔ now - day < e.time := by omega
    simp only [marks_time mem, shifted]
  rw [same]
  by_cases young : now - day < e.time
  · simp only [young, decide_true, Bool.and_true]
    exact kindOf e
  · simp [young]

theorem marks_restart (e : Written) :
    e.marks.countP (fun d => d.k = .r) = if e.isRestart then 1 else 0 := by
  unfold Written.marks
  split
  · rfl
  · split <;> rfl

theorem marks_recheck (e : Written) :
    e.marks.countP (fun d => d.k = .c) = if e.isRecheck then 1 else 0 := by
  unfold Written.marks
  by_cases restart : e.isRestart = true
  · have notRecheck : e.isRecheck = false := by
      by_contra recheck
      have kindIs : e.kind = some .recheckAgent := by simpa [Written.isRecheck] using recheck
      rw [Written.isRestart, kindIs] at restart
      exact absurd restart (by decide)
    rw [if_pos restart, notRecheck]
    rfl
  · rw [if_neg restart]
    split <;> rfl

/-- Every automatic restart saw fewer than the day's limit of them. -/
theorem Chain.restarts_trailing {log : List Written} (chain : Chain log) :
    Window.Trailing Written.time Written.isRestart maxPoolRestartsPerDay day log := by
  induction log with
  | nil => trivial
  | cons e earlier ih =>
      obtain ⟨before, ⟨spell, _, _, step⟩, _, order⟩ := chain
      refine ⟨ih before, ?_⟩
      intro isRestart
      rw [← dayOf_before before (some spell) (fun p mem => (order p mem).1) .r _ marks_restart]
      exact (step.restarts_room isRestart).1

/-- Every automatic re-check saw fewer than the day's limit of them. -/
theorem Chain.rechecks_trailing {log : List Written} (chain : Chain log) :
    Window.Trailing Written.time Written.isRecheck maxPoolRechecksPerDay day log := by
  induction log with
  | nil => trivial
  | cons e earlier ih =>
      obtain ⟨before, ⟨spell, _, _, step⟩, _, order⟩ := chain
      refine ⟨ih before, ?_⟩
      intro isRecheck
      rw [← dayOf_before before (some spell) (fun p mem => (order p mem).1) .c _ marks_recheck]
      exact step.rechecks_room (of_decide_eq_true isRecheck)

/-! ## One spell -/

theorem suffix_eq_of_head {l m : List Int} {s : Int} (suffix : l <:+ m) (nodup : m.Nodup)
    (head : l.head? = some s) (head' : m.head? = some s) : l = m := by
  obtain ⟨front, rfl⟩ := suffix
  cases front with
  | nil => rfl
  | cons a rest =>
      have same : a = s := by simpa using head'
      have inBack : s ∈ l := List.mem_of_head? head
      have apart := (List.nodup_append.mp nodup).2.2 a List.mem_cons_self s inBack
      exact absurd same apart

/-- A spell that a later write is not in is a spell no write after that one is in. -/
theorem spell_passed {e p : Written} {spells : List Int} {s : Int} (nodup : spells.Nodup)
    (older : p.spells <:+ e.spells) (newer : e.spells <:+ spells) (head : spells.head? = some s)
    (same : p.spell = some s) : e.spell = some s := by
  have all : p.spells = spells := suffix_eq_of_head (older.trans newer) nodup same head
  have back : e.spells = spells := by
    apply newer.eq_of_length_le
    rw [← all]
    exact older.length_le
  rw [Written.spell, back, head]

theorem autoOf_same {a : AutoState} {spell : Option Int} {now : Int} (is : a.spell = spell) :
    (autoOf (some a) spell now).restarts = a.restarts ∧
      (autoOf (some a) spell now).lastRestart = a.lastRestart ∧
      (autoOf (some a) spell now).gaveUp = a.gaveUp := by
  simp [autoOf, is]

theorem Chain.value_spell {e : Written} {earlier : List Written} (chain : Chain (e :: earlier)) :
    e.value.spell = e.spell := by
  obtain ⟨_, ⟨spell, spellIs, _, step⟩, _, _⟩ := chain
  rw [step.spell_eq, autoOf_spell, spellIs]

/-- Restarts of the spell a claim is in, counted in what it read. -/
structure SpellCounted (log : List Written) (s : Int) (auto : AutoState) : Prop where
  counted : log.countP (fun e => e.isRestart && e.spell = some s) ≤ auto.restarts
  last : ∀ p ∈ log, p.isRestart = true → p.spell = some s →
    ∃ t, auto.lastRestart = some t ∧ p.time ≤ t

theorem Chain.spell_before {log : List Written} (chain : Chain log) {spells : List Int}
    (nodup : spells.Nodup) (seen : ∀ p ∈ log, p.spells <:+ spells) {s : Int}
    (head : spells.head? = some s) (now : Int) :
    SpellCounted log s (autoOf (lastValue log) (some s) now) := by
  induction log generalizing spells s now with
  | nil => exact ⟨Nat.zero_le _, by simp⟩
  | cons e earlier ih =>
      have valueSpell := chain.value_spell
      obtain ⟨before, ⟨own, ownIs, _, step⟩, ownNodup, order⟩ := chain
      by_cases here : e.spell = some s
      · obtain rfl : own = s := Option.some.inj (ownIs.symm.trans here)
        obtain ⟨counted, last⟩ :=
          ih before ownNodup (fun p mem => (order p mem).2) ownIs e.time
        obtain ⟨restarts, lastRestart, _⟩ :=
          @autoOf_same e.value (some own) now (valueSpell.trans here)
        constructor
        · show _ ≤ (autoOf (some e.value) (some own) now).restarts
          rw [restarts, step.restarts_eq, List.countP_cons]
          refine Nat.add_le_add counted ?_
          simp [here, Written.isRestart]
        · intro p mem isRestart spellIs
          show ∃ t, (autoOf (some e.value) (some own) now).lastRestart = some t ∧ p.time ≤ t
          rw [lastRestart, step.lastRestart_eq]
          rcases List.mem_cons.mp mem with rfl | old
          · exact ⟨p.time, if_pos isRestart, le_refl _⟩
          · by_cases eIs : e.kind.any (·.restartType) = true
            · exact ⟨e.time, if_pos eIs, (order p old).1⟩
            · rw [if_neg eIs]
              exact last p old isRestart spellIs
      · -- The value counts another spell, and no write is in this one.
        have noneHere : ∀ p ∈ e :: earlier, p.spell ≠ some s := by
          intro p mem same
          rcases List.mem_cons.mp mem with rfl | old
          · exact here same
          · exact here (spell_passed nodup (order p old).2 (seen e List.mem_cons_self) head same)
        constructor
        · have zero : (e :: earlier).countP (fun e => e.isRestart && e.spell = some s) = 0 := by
            rw [List.countP_eq_zero]
            intro p mem
            simp [noneHere p mem]
          rw [zero]
          exact Nat.zero_le _
        · intro p mem _ same
          exact absurd same (noneHere p mem)

/-- At most the spell's limit of restarts. -/
theorem Chain.restarts_per_spell {log : List Written} (chain : Chain log) (s : Int) :
    log.countP (fun e => e.isRestart && e.spell = some s) ≤ maxPoolRestartsPerSpell := by
  induction log with
  | nil => exact Nat.zero_le _
  | cons e earlier ih =>
      obtain ⟨before, ⟨own, ownIs, _, step⟩, nodup, order⟩ := chain
      rw [List.countP_cons]
      split
      · rename_i both
        obtain ⟨isRestart, here⟩ := Bool.and_eq_true_iff.mp both
        obtain rfl : own = s := Option.some.inj (ownIs.symm.trans (of_decide_eq_true here))
        have counted :=
          (before.spell_before nodup (fun p mem => (order p mem).2) ownIs e.time).counted
        exact Nat.succ_le_of_lt (lt_of_le_of_lt counted (step.restarts_room isRestart).2.1)
      · exact ih before

/-- Two restarts of one spell are the rules' spacing apart. -/
theorem Chain.restarts_apart {log : List Written} (chain : Chain log) :
    log.Pairwise fun later earlier => later.isRestart = true → earlier.isRestart = true →
      later.spell = earlier.spell → restartSpacingMin * minute ≤ later.time - earlier.time := by
  induction log with
  | nil => exact List.Pairwise.nil
  | cons e earlier ih =>
      obtain ⟨before, ⟨own, ownIs, _, step⟩, nodup, order⟩ := chain
      refine List.pairwise_cons.mpr ⟨?_, ih before⟩
      intro p mem isRestart pRestart same
      have here : p.spell = some own := same.symm.trans ownIs
      obtain ⟨counted, last⟩ :=
        before.spell_before nodup (fun p mem => (order p mem).2) ownIs e.time
      have restarted : 0 < earlier.countP (fun e => e.isRestart && e.spell = some own) := by
        rw [List.countP_pos_iff]
        exact ⟨p, mem, by simp [pRestart, here]⟩
      obtain ⟨t, lastIs, spaced⟩ := (step.restarts_room isRestart).2.2 (by omega)
      obtain ⟨t', lastIs', notAfter⟩ := last p mem pRestart here
      obtain rfl : t = t' := Option.some.inj (lastIs.symm.trans lastIs')
      omega

/-- After a give-up nothing more is written in that spell. -/
theorem Chain.giveUp_last {log : List Written} (chain : Chain log) :
    log.Pairwise fun later earlier => earlier.isGiveUp = true → later.spell ≠ earlier.spell := by
  induction log with
  | nil => exact List.Pairwise.nil
  | cons e earlier ih =>
      obtain ⟨before, ⟨own, ownIs, going, _⟩, nodup, order⟩ := chain
      have settled := ih before
      refine List.pairwise_cons.mpr ⟨?_, settled⟩
      intro p mem pGaveUp same
      have here : p.spell = some own := same.symm.trans ownIs
      cases earlier with
      | nil => cases mem
      | cons q older =>
          have qHere : q.spell = some own := by
            rcases List.mem_cons.mp mem with rfl | old
            · exact here
            · exact spell_passed nodup ((before.2.2.2 p old).2) ((order q List.mem_cons_self).2)
                ownIs here
          rcases List.mem_cons.mp mem with rfl | old
          · -- The newest value is the give-up, of this very spell.
            have kept := (@autoOf_same p.value (some own) e.time (before.value_spell.trans here)).2.2
            obtain ⟨_, ⟨_, _, _, step⟩, _, _⟩ := before
            have set : p.value.gaveUp = some p.time := by
              rw [step.gaveUp_eq, if_pos (of_decide_eq_true pGaveUp)]
            have none : (autoOf (some p.value) (some own) e.time).gaveUp = none := going
            rw [kept, set] at none
            cases none
          · exact (List.pairwise_cons.mp settled).1 p old pGaveUp (qHere.trans here.symm)

/-- Whatever is written is written after its spell began. -/
theorem Chain.aged {log : List Written} (chain : Chain log) :
    ∀ e ∈ log, ∀ s, e.spell = some s → s < e.time := by
  induction log with
  | nil => simp
  | cons e earlier ih =>
      obtain ⟨before, ⟨own, ownIs, _, step⟩, _, order⟩ := chain
      intro p mem s here
      rcases List.mem_cons.mp mem with rfl | old
      · obtain rfl : own = s := Option.some.inj (ownIs.symm.trans here)
        by_cases none : (autoOf (lastValue earlier) (some own) p.time).restarts = 0
        · exact step.aged none
        · -- The counts go on from the write before, which is in this spell too.
          cases earlier with
          | nil => exact absurd rfl none
          | cons q older =>
              have qHere : q.spell = some own := by
                rw [← before.value_spell]
                by_contra other
                apply none
                simp [lastValue, autoOf, other, AutoState.fresh]
              have began := ih before q List.mem_cons_self own qHere
              have notBack := (order q List.mem_cons_self).1
              omega
      · exact ih before p old s here

/-! ## No value is written twice -/

theorem Chain.suffix {log older : List Written} (chain : Chain log) (suffix : older <:+ log) :
    Chain older := by
  induction log with
  | nil =>
      rw [List.suffix_nil.mp suffix]
      trivial
  | cons e earlier ih =>
      rcases List.suffix_cons_iff.mp suffix with rfl | shorter
      · exact chain
      · exact ih chain.1 shorter

theorem allMarks_append (log older : List Written) :
    allMarks (log ++ older) = allMarks older ++ allMarks log := by
  simp [allMarks, List.flatMap_append]

theorem Chain.value_day {e : Written} {earlier : List Written} (chain : Chain (e :: earlier)) :
    e.value.day =
      (allMarks earlier).filter (fun d => decide (e.time - d.time < day)) ++ e.marks := by
  obtain ⟨before, ⟨own, _, _, step⟩, _, order⟩ := chain
  rw [step.day_eq e.spells e.value, before.day_before (some own) fun p mem => (order p mem).1]

theorem Chain.value_gaveUp {e : Written} {earlier : List Written} (chain : Chain (e :: earlier)) :
    e.value.gaveUp = if e.kind = none then some e.time else none := by
  obtain ⟨_, ⟨own, _, going, step⟩, _, _⟩ := chain
  rw [step.gaveUp_eq, going]

/-- The value a write leaves is not one that was there before. -/
theorem Chain.value_ne {e : Written} {earlier : List Written} (chain : Chain (e :: earlier))
    {p : Written} (mem : p ∈ earlier) : p.value ≠ e.value := by
  intro same
  obtain ⟨between, older, rfl⟩ := List.mem_iff_append.mp mem
  have pChain : Chain (p :: older) := chain.suffix ⟨e :: between, rfl⟩
  have gaveUps : (if p.kind = none then some p.time else none) =
      if e.kind = none then some e.time else none := by
    rw [← pChain.value_gaveUp, ← chain.value_gaveUp, same]
  by_cases gaveUp : e.kind = none
  · -- Two give-ups of one spell.
    have pGaveUp : p.kind = none := by
      by_contra isOrder
      rw [if_neg isOrder, if_pos gaveUp] at gaveUps
      cases gaveUps
    have spells : e.spell = p.spell := by
      rw [← chain.value_spell, ← pChain.value_spell, same]
    exact (List.pairwise_cons.mp chain.giveUp_last).1 p mem (decide_eq_true pGaveUp) spells
  · -- Two orders at one time: the later one's list holds one mark more.
    have pOrder : p.kind ≠ none := by
      intro pGaveUp
      rw [if_pos pGaveUp, if_neg gaveUp] at gaveUps
      cases gaveUps
    obtain ⟨k, eMark⟩ : ∃ k, e.marks = [⟨k, e.time⟩] := by
      obtain ⟨_, ⟨_, _, _, step⟩, _, _⟩ := chain
      exact step.mark gaveUp e.spells e.value
    obtain ⟨k', pMark⟩ : ∃ k, p.marks = [⟨k, p.time⟩] := by
      obtain ⟨_, ⟨_, _, _, step⟩, _, _⟩ := pChain
      exact step.mark pOrder p.spells p.value
    have days : (allMarks older).filter (fun d => decide (p.time - d.time < day)) ++ p.marks =
        (allMarks (between ++ p :: older)).filter (fun d => decide (e.time - d.time < day)) ++
          e.marks := by
      rw [← pChain.value_day, ← chain.value_day, same]
    have times : p.time = e.time := by
      have last := List.append_inj_right' days (by rw [eMark, pMark]; rfl)
      rw [eMark, pMark] at last
      exact congrArg AutoMark.time (List.cons.inj last).1
    have lengths := congrArg List.length days
    rw [times, allMarks_append, allMarks_cons, List.filter_append, List.filter_append, eMark, pMark,
      times] at lengths
    have counts : ([⟨k', e.time⟩] : List AutoMark).filter
        (fun d => decide (e.time - d.time < day)) = [⟨k', e.time⟩] := by
      simp [day, hour, minute]
    rw [counts] at lengths
    simp only [List.length_append, List.length_singleton] at lengths
    omega

end OmarchyPool.WorkerOrders
