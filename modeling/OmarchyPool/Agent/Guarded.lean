/-
# OmarchyPool.Agent.Guarded -- what was watched before a release is committed

A round that replaces services commits only from its guard, and the guard lets it commit only at
a sample that found the container running and ready, the guard's length after it began, when
every sample before passed.  A process that dies in a guard begins it again.  With the two
directories this is all a commit promises, and the last theorem of this module puts it together.
-/
import OmarchyPool.Agent.LastGood

namespace OmarchyPool.Agent

open OmarchyPool.Lib
open Relation (ReflTransGen)

set_option autoImplicit false

variable {cfg : Config} {host : Host} {disk : Disk} {s : State}

/-! ## The guards, out of the deeds -/

def AllPassed (deeds : List Deed) : Prop :=
  ∀ container time passed, .sampled container time passed ∈ deeds → passed = true

/-- A guard of `target` began, and at its length or later a sample found the container running and
ready; every sample in between passed. -/
def WatchedOut (deeds : List Deed) (target : Option Release) : Prop :=
  ∃ before between after container began guardS time,
    deeds = before ++ .guardBegan target container began ::
      (between ++ .watched target container began guardS time :: after) ∧
    began + guardS ≤ time ∧ AllPassed between

/-- Whatever was committed with services to replace had been watched. -/
def CommitsWatched (deeds : List Deed) : Prop :=
  ∀ before target services after, deeds = before ++ .committed target services :: after →
    services ≠ [] → WatchedOut before (some target)

/-- Neither a sample nor a commit. -/
def Inert (d : Deed) : Prop :=
  (∀ container time passed, d ≠ .sampled container time passed) ∧
    ∀ target services, d ≠ .committed target services

theorem AllPassed.append {deeds more : List Deed} (passed : AllPassed deeds)
    (also : AllPassed more) : AllPassed (deeds ++ more) := by
  intro container time result mem
  exact (List.mem_append.mp mem).elim (passed container time result) (also container time result)

theorem allPassed_inert {more : List Deed} (inert : ∀ d ∈ more, Inert d) : AllPassed more := by
  intro container time passed mem
  exact absurd rfl ((inert _ mem).1 container time passed)

theorem WatchedOut.append {deeds : List Deed} {target : Option Release}
    (watched : WatchedOut deeds target) (more : List Deed) : WatchedOut (deeds ++ more) target := by
  obtain ⟨before, between, after, container, began, guardS, time, rfl, long, passed⟩ := watched
  exact ⟨before, between, after ++ more, container, began, guardS, time, by simp, long, passed⟩

theorem CommitsWatched.append {deeds more : List Deed} (watched : CommitsWatched deeds)
    (none : ∀ d ∈ more, ∀ target services, d ≠ .committed target services) :
    CommitsWatched (deeds ++ more) := by
  intro before target services after shape some
  rcases List.append_eq_append_iff.mp shape with ⟨between, rfl, rest⟩ | ⟨between, whole, rest⟩
  · exact absurd rfl (none _ (by rw [rest]; simp) target services)
  · cases between with
    | nil =>
        rw [List.nil_append] at rest
        exact absurd rfl (none _ (by rw [← rest]; simp) target services)
    | cons first others =>
        injection rest with same others'
        subst same
        exact watched before target services others whole some

/-! ## Where a round stands with its guard -/

structure OnGuard (deeds : List Deed) (s : State) : Prop where
  guard : ∀ g, s.rollout.step = .guard g → ∃ before between,
    deeds = before ++ .guardBegan s.rollout.target g.container g.started :: between ∧
      AllPassed between
  commit : s.rollout.step = .commit → s.rollout.services ≠ [] → WatchedOut deeds s.rollout.target

theorem OnGuard.append {deeds more : List Deed} (onGuard : OnGuard deeds s)
    (inert : ∀ d ∈ more, Inert d) : OnGuard (deeds ++ more) s where
  guard := by
    intro g step
    obtain ⟨before, between, rfl, passed⟩ := onGuard.guard g step
    exact ⟨before, between ++ more, by simp, passed.append (allPassed_inert inert)⟩
  commit := fun step some => (onGuard.commit step some).append more

/-- Neither at a guard nor at a commit. -/
theorem onGuard_plain {deeds : List Deed} (notGuard : ∀ g, s.rollout.step ≠ .guard g)
    (notCommit : s.rollout.step ≠ .commit) : OnGuard deeds s :=
  ⟨fun g step => absurd step (notGuard g), fun step => absurd step notCommit⟩

/-- What a step does about guards and commits. -/
structure Watches (s : State) (work : Work) : Prop where
  guard : ∀ g, work.state.rollout.step = .guard g →
    work.state.rollout.target = s.rollout.target ∧
      ((∃ before, s.rollout.step = .guard before ∧ before.container = g.container ∧
          before.started = g.started ∧ AllPassed work.deeds) ∨
        ∃ early, work.deeds = early ++ [.guardBegan s.rollout.target g.container g.started])
  commit : work.state.rollout.step = .commit →
    work.state.rollout.target = s.rollout.target ∧
      (work.state.rollout.services = [] ∨ ∃ g guardS time, s.rollout.step = .guard g ∧
        g.started + guardS ≤ time ∧ work.deeds = [.sampled g.container time true,
          .watched s.rollout.target g.container g.started guardS time])
  committed : ∀ target services, .committed target services ∈ work.deeds →
    s.rollout.step = .commit ∧ s.rollout.target = some target ∧
      s.rollout.services = services ∧ work.deeds = [.committed target services]

theorem watches_plain {work : Work} (notGuard : ∀ g, work.state.rollout.step ≠ .guard g)
    (notCommit : work.state.rollout.step ≠ .commit)
    (none : ∀ target services, .committed target services ∉ work.deeds) : Watches s work where
  guard := fun g step => absurd step (notGuard g)
  commit := fun step => absurd step notCommit
  committed := fun target services mem => absurd mem (none target services)

/-- The same step, and no deeds. -/
theorem watches_stay {t : State} (rollout : t.rollout = s.rollout)
    (notCommit : s.rollout.step ≠ .commit) : Watches s (.stay t) where
  guard := by
    intro g step
    have stepIs : s.rollout.step = .guard g := by rw [← rollout]; exact step
    refine ⟨by rw [show (Work.stay t).state = t from rfl, rollout], Or.inl ⟨g, stepIs, rfl, rfl, ?_⟩⟩
    intro _ _ _ mem
    cases mem
  commit := by
    intro step
    have stepIs : s.rollout.step = .commit := by rw [← rollout]; exact step
    exact absurd stepIs notCommit
  committed := fun _ _ mem => (by cases mem)

theorem rollout_engineWait (s : State) (now : Int) : (engineWait s now).rollout = s.rollout := by
  unfold engineWait
  split
  · split <;> rfl
  · rfl

theorem watches_finish (now : Int) (outcome : Outcome) (fromRelease : Option Release)
    (t : State) (ops : List Op) : Watches s ⟨ops, finish t now outcome fromRelease, []⟩ :=
  watches_plain (fun _ same => nomatch same) (fun same => nomatch same) (fun _ _ mem => (by cases mem))

theorem render_watches (pending : Option Target) : Watches s (render cfg host disk pending s) := by
  unfold render
  split
  · exact watches_finish _ _ _ _ _
  split
  · exact watches_finish _ _ _ _ _
  dsimp only
  split
  · exact watches_finish _ _ _ _ _
  split
  · exact watches_plain (fun _ same => nomatch same) (fun same => nomatch same)
      (fun _ _ mem => (by cases mem))
  · exact watches_finish _ _ _ _ _

theorem lintStep_watches : Watches s (lintStep host disk s) := by
  unfold lintStep
  dsimp only
  split
  · exact watches_finish _ _ _ _ _
  · exact watches_plain (fun _ same => nomatch same) (fun same => nomatch same)
      (fun _ _ mem => (by cases mem))
  · exact watches_finish _ _ _ _ _

theorem planAgainst_watches {engine : Engine} {wanted : OrderedMap String String}
    {services : List String} (units : List Container) :
    Watches s (planAgainst host engine wanted services s units) := by
  unfold planAgainst
  dsimp only
  split
  · rename_i nothing
    refine ⟨?_, fun _ => ⟨rfl, Or.inl nothing⟩, ?_⟩
    · intro _ same
      cases same
    · intro _ _ mem
      cases mem
  split
  · exact watches_plain (fun _ same => nomatch same) (fun same => nomatch same)
      (fun _ _ mem => (by cases mem))
  · exact watches_finish _ _ _ _ _
  · exact watches_finish _ _ _ _ _

theorem plan_watches (step : s.rollout.step = .plan) : Watches s (plan cfg host disk s) := by
  have notCommit : s.rollout.step ≠ .commit := by rw [step]; exact fun same => nomatch same
  have waits := watches_stay (rollout_engineWait s host.now) notCommit
  unfold plan
  split
  · exact watches_finish _ _ _ _ _
  split
  · exact watches_finish _ _ _ _ _
  split
  · exact waits
  split
  · exact waits
  split
  · exact planAgainst_watches _
  · exact planAgainst_watches _
  · exact waits

theorem pull_watches (step : s.rollout.step = .pull) : Watches s (pull cfg host disk s) := by
  have notCommit : s.rollout.step ≠ .commit := by rw [step]; exact fun same => nomatch same
  have waits := watches_stay (rollout_engineWait s host.now) notCommit
  have stays := watches_stay (t := s) rfl notCommit
  unfold pull
  split
  · exact watches_finish _ _ _ _ _
  split
  · exact waits
  split
  · split
    · exact stays
    · exact watches_finish _ _ _ _ _
    · exact watches_finish _ _ _ _ _
  · exact stays
  · exact watches_plain (fun _ same => nomatch same) (fun same => nomatch same)
      (fun _ _ mem => (by cases mem))
  · exact watches_finish _ _ _ _ _
  · exact waits

theorem finishRevert_watches : Watches s (finishRevert host disk s) := watches_finish _ _ _ _ _

theorem revert_watches (why : String) : Watches s (revert host disk s why) := by
  unfold revert
  split
  · exact watches_plain (fun _ same => nomatch same) (fun same => nomatch same)
      (fun _ _ mem => (by cases mem))
  · exact finishRevert_watches

theorem failReplace_watches (files : Files) (why : String) :
    Watches s (failReplace host disk s files why) := by
  unfold failReplace
  split
  · exact watches_plain (fun _ same => nomatch same) (fun same => nomatch same)
      (fun _ _ mem => (by cases mem))
  · exact finishRevert_watches

/-- A replace that goes on, to its next phase or to a guard that begins. -/
theorem watches_begins {t : State} {step : Step} {now : Int} {early : List Deed}
    (target : t.rollout.target = s.rollout.target) (notCommit : step ≠ .commit)
    (none : ∀ target services, .committed target services ∉ early) :
    Watches s ⟨[], go t now step, early ++ beginning s step⟩ where
  guard := by
    intro g isGuard
    have stepIs : step = .guard g := isGuard
    subst stepIs
    exact ⟨target, Or.inr ⟨early, rfl⟩⟩
  commit := fun commit => absurd commit notCommit
  committed := by
    intro other services mem
    rcases List.mem_append.mp mem with first | second
    · exact absurd first (none other services)
    · unfold beginning at second
      split at second
      · cases List.mem_singleton.mp second
      · cases second

theorem replace_watches {files : Files} {phase : Phase}
    (step : s.rollout.step = .replace files phase) :
    Watches s (replace cfg host disk s files phase) := by
  have notCommit : s.rollout.step ≠ .commit := by rw [step]; exact fun same => nomatch same
  unfold replace
  split
  · exact failReplace_watches _ _
  dsimp only
  split
  · exact watches_stay (rollout_engineWait s host.now) notCommit
  split
  · rename_i next goes
    have notNow := (replacePhase_goes goes).2
    split
    · exact @watches_begins s _ _ _ [.restarted host.now] rfl notNow
        (fun _ _ mem => by cases List.mem_singleton.mp mem)
    · exact @watches_begins s _ _ _ [] rfl notNow (fun _ _ mem => (by cases mem))
  · exact watches_stay (t := s) rfl notCommit
  · exact watches_stay (rollout_engineWait s host.now) notCommit
  · exact failReplace_watches _ _
  · exact finishRevert_watches

/-! ## The guard's own step -/

theorem allPassed_sampled (container : String) (time : Int) :
    AllPassed [.sampled container time true] := by
  intro _ _ passed mem
  cases List.mem_singleton.mp mem
  rfl

/-- A sample after which the guard goes on. -/
theorem watches_sampled {t : State} {g after : Guard} {time : Int}
    (step : s.rollout.step = .guard g) (same : after.container = g.container ∧ after.started = g.started)
    (target : t.rollout.target = s.rollout.target) (stays : t.rollout.step = .guard after) :
    Watches s ⟨[], t, [.sampled g.container time true]⟩ where
  guard := by
    intro other isGuard
    have stepIs : t.rollout.step = .guard other := isGuard
    rw [stays] at stepIs
    cases stepIs
    exact ⟨target, Or.inl ⟨g, step, same.1.symm, same.2.symm, allPassed_sampled _ _⟩⟩
  commit := by
    intro commit
    have stepIs : t.rollout.step = .commit := commit
    rw [stays] at stepIs
    cases stepIs
  committed := fun _ _ mem => by cases List.mem_singleton.mp mem

theorem watches_fails {g : Guard} {why : String} {time : Int} {passed : Bool} :
    Watches s ⟨[], guardFails host s why, [.sampled g.container time passed]⟩ :=
  watches_plain (fun _ same => nomatch same) (fun same => nomatch same)
    (fun _ _ mem => by cases List.mem_singleton.mp mem)

theorem guardPassed_watches {g after : Guard} {guardS : Nat} (step : s.rollout.step = .guard g)
    (same : after.container = g.container ∧ after.started = g.started) :
    Watches s (guardPassed host s after guardS) := by
  unfold guardPassed
  rw [same.1, same.2]
  split
  · rename_i long
    refine ⟨?_, fun _ => ⟨rfl, Or.inr ⟨g, guardS, host.now, step, long, rfl⟩⟩, ?_⟩
    · intro _ same
      cases same
    · intro target services mem
      rcases List.mem_cons.mp mem with same | later
      · cases same
      · cases List.mem_singleton.mp later
  · exact watches_sampled step same rfl rfl

theorem guardReady_watches {engine : Engine} {g after : Guard} {http : Option String} {guardS : Nat}
    {settling : Bool} (step : s.rollout.step = .guard g)
    (same : after.container = g.container ∧ after.started = g.started) :
    Watches s (guardReady host engine s after http guardS settling) := by
  unfold guardReady
  split
  · exact guardPassed_watches step same
  rw [same.1]
  split
  · exact guardPassed_watches step same
  · split
    · exact watches_sampled step same rfl rfl
    · exact watches_fails
  · split
    · exact watches_sampled step same rfl rfl
    · exact watches_fails
  · refine @watches_sampled s _ g g _ step ⟨rfl, rfl⟩ ?_ ?_
    · rw [rollout_engineWait]
    · rw [rollout_engineWait]
      exact step

theorem judge_same (g : Guard) (u : Container) (exits : List Exit) (settling : Bool) :
    (judge g u exits settling).1.container = g.container ∧
      (judge g u exits settling).1.started = g.started := by
  unfold judge
  split
  · exact ⟨rfl, rfl⟩
  dsimp only
  split
  · exact ⟨rfl, rfl⟩
  split
  · exact ⟨rfl, rfl⟩
  split
  · exact ⟨rfl, rfl⟩
  split
  · exact ⟨rfl, rfl⟩
  · exact ⟨rfl, rfl⟩

theorem guardSample_watches {engine : Engine} {g : Guard} {set : SetToml} {services : List String}
    {u : Container} {exits : List Exit} (step : s.rollout.step = .guard g) :
    Watches s (guardSample host engine s g set services u exits) := by
  unfold guardSample
  dsimp only
  have same := judge_same { g with lastSample := host.now } u exits
    (settlingAt exits host.now (readyWait set))
  split
  · exact watches_fails
  · rename_i after judged
    rw [judged] at same
    rw [show after.container = g.container from same.1]
    exact watches_sampled (t := guardStays s after) step same rfl rfl
  · rename_i judged
    rw [judged] at same
    exact guardReady_watches step same

theorem guard_watches {g : Guard} (step : s.rollout.step = .guard g) :
    Watches s (guard cfg host disk s g) := by
  have notCommit : s.rollout.step ≠ .commit := by rw [step]; exact fun same => nomatch same
  have fails : ∀ why, Watches s (.stay (guardFails host s why)) := fun why =>
    watches_plain (fun _ same => nomatch same) (fun same => nomatch same)
      (fun _ _ mem => (by cases mem))
  have waits := watches_stay (rollout_engineWait s host.now) notCommit
  unfold guard
  split
  · exact watches_stay (t := s) rfl notCommit
  split
  · exact fails _
  split
  · exact waits
  split
  · exact fails _
  · exact waits
  split
  · exact guardSample_watches step
  · exact guardSample_watches step
  · exact waits

theorem commit_watches (step : s.rollout.step = .commit) : Watches s (commit host disk s) := by
  unfold commit
  split
  · exact watches_finish _ _ _ _ _
  split
  · exact watches_plain (fun _ same => nomatch same) (fun same => nomatch same)
      (fun _ _ mem => (by cases mem))
  · rename_i target names _ ops _
    refine ⟨?_, ?_, ?_⟩
    · intro _ same
      cases same
    · intro same
      cases same
    · intro other services mem
      cases List.mem_singleton.mp mem
      exact ⟨step, names, rfl, rfl⟩

theorem step_watches (pending : Option Target) : Watches s (step cfg host disk pending s) := by
  unfold step
  split
  · rename_i here
    exact watches_stay (t := s) rfl (by rw [here]; exact fun same => nomatch same)
  · exact render_watches pending
  · exact lintStep_watches
  · rename_i here; exact plan_watches here
  · rename_i here; exact pull_watches here
  · rename_i here; exact replace_watches here
  · rename_i here; exact guard_watches here
  · rename_i here; exact commit_watches here
  · exact revert_watches _

/-! ## What the sample that ends a guard saw -/

/-- The engine answers that the container runs and, where the staged set names a check, that the
check is passed; the set asks for this long a guard. -/
def SeenReady (cfg : Config) (host : Host) (disk : Disk) (container : String) (guardS : Int) :
    Prop :=
  ∃ engine set services u, host.engine = some engine ∧
    project cfg disk .staging = .ok (set, services) ∧ engine.inspect container = .yes u ∧
    u.running = true ∧ guardS = set.guardS ∧
    ∀ http, (services.head?.bind fun s => (set.ready.get s).map Ready.http) = some http →
      engine.ready container http = .yes true

theorem render_noDeeds {pending : Option Target} : (render cfg host disk pending s).deeds = [] := by
  unfold render
  split
  · rfl
  split
  · rfl
  dsimp only
  split
  · rfl
  split
  · rfl
  · rfl

theorem lintStep_noDeeds : (lintStep host disk s).deeds = [] := by
  unfold lintStep
  dsimp only
  repeat' split
  all_goals rfl

theorem planAgainst_noDeeds {engine : Engine} {wanted : OrderedMap String String}
    {services : List String} {units : List Container} :
    (planAgainst host engine wanted services s units).deeds = [] := by
  unfold planAgainst
  dsimp only
  split
  · rfl
  split <;> rfl

theorem plan_noDeeds : (plan cfg host disk s).deeds = [] := by
  unfold plan
  repeat' split
  all_goals first | rfl | exact planAgainst_noDeeds

theorem pull_noDeeds : (pull cfg host disk s).deeds = [] := by
  unfold pull
  repeat' split
  all_goals rfl

theorem revert_noDeeds {why : String} : (revert host disk s why).deeds = [] := by
  unfold revert
  split
  · rfl
  · rfl

theorem commit_noWatched {target : Option Release} {container : String} {began length time : Int} :
    .watched target container began length time ∉ (commit host disk s).deeds := by
  intro mem
  unfold commit at mem
  split at mem
  · cases mem
  split at mem
  · cases mem
  · cases List.mem_singleton.mp mem

theorem replace_noWatched {files : Files} {phase : Phase} {target : Option Release}
    {container : String} {began length time : Int} :
    .watched target container began length time ∉ (replace cfg host disk s files phase).deeds := by
  have fails : ∀ why, (failReplace host disk s files why).deeds = [] := by
    intro why
    unfold failReplace
    split <;> rfl
  have begins : ∀ step, .watched target container began length time ∉ beginning s step := by
    intro step mem
    unfold beginning at mem
    split at mem
    · cases List.mem_singleton.mp mem
    · cases mem
  intro mem
  unfold replace at mem
  split at mem
  · rw [fails] at mem
    cases mem
  dsimp only at mem
  split at mem
  · cases mem
  split at mem
  · split at mem
    · rcases List.mem_cons.mp mem with same | later
      · cases same
      · exact begins _ later
    · exact begins _ mem
  · cases mem
  · cases mem
  · rw [fails] at mem
    cases mem
  · cases mem

theorem judge_runs {g after : Guard} {u : Container} {exits : List Exit} {settling : Bool}
    (judged : judge g u exits settling = (after, .ok true)) : u.running = true := by
  unfold judge at judged
  dsimp only at judged
  split at judged
  · cases judged
  split at judged
  · cases judged
  split at judged
  · split at judged <;> cases judged
  split at judged
  · assumption
  split at judged
  · cases judged
  · cases judged

theorem guardPassed_watched {g : Guard} {guardS : Nat} {target : Option Release}
    {container : String} {began length time : Int}
    (mem : .watched target container began length time ∈ (guardPassed host s g guardS).deeds) :
    container = g.container ∧ time = host.now ∧ length = guardS := by
  unfold guardPassed at mem
  split at mem
  · rcases List.mem_cons.mp mem with same | later
    · cases same
    · cases List.mem_singleton.mp later
      exact ⟨rfl, rfl, rfl⟩
  · cases List.mem_singleton.mp mem

theorem guardReady_watched {engine : Engine} {g : Guard} {http : Option String} {guardS : Nat}
    {settling : Bool} {target : Option Release} {container : String} {began length time : Int}
    (mem : .watched target container began length time ∈
      (guardReady host engine s g http guardS settling).deeds) :
    container = g.container ∧ time = host.now ∧ length = guardS ∧
      ∀ check, http = some check → engine.ready container check = .yes true := by
  unfold guardReady at mem
  split at mem
  · obtain ⟨same, now, long⟩ := guardPassed_watched mem
    exact ⟨same, now, long, fun _ none => (by cases none)⟩
  split at mem
  · rename_i answers
    obtain ⟨same, now, long⟩ := guardPassed_watched mem
    refine ⟨same, now, long, ?_⟩
    intro check names
    cases names
    rw [same]
    exact answers
  · split at mem
    · cases List.mem_singleton.mp mem
    · cases List.mem_singleton.mp mem
  · split at mem
    · cases List.mem_singleton.mp mem
    · cases List.mem_singleton.mp mem
  · cases List.mem_singleton.mp mem

theorem guardSample_watched {engine : Engine} {g : Guard} {set : SetToml} {services : List String}
    {u : Container} {exits : List Exit} {target : Option Release} {container : String}
    {began length time : Int}
    (mem : .watched target container began length time ∈
      (guardSample host engine s g set services u exits).deeds) :
    container = g.container ∧ time = host.now ∧ u.running = true ∧ length = set.guardS ∧
      ∀ http, (services.head?.bind fun s => (set.ready.get s).map Ready.http) = some http →
        engine.ready container http = .yes true := by
  unfold guardSample at mem
  dsimp only at mem
  have kept := judge_same { g with lastSample := host.now } u exits
    (settlingAt exits host.now (readyWait set))
  split at mem
  · cases List.mem_singleton.mp mem
  · cases List.mem_singleton.mp mem
  · rename_i judged
    rw [judged] at kept
    obtain ⟨same, now, long, ready⟩ := guardReady_watched mem
    exact ⟨same.trans kept.1, now, judge_runs judged, long, ready⟩

theorem guard_watched {g : Guard} {target : Option Release} {container : String}
    {began length time : Int}
    (mem : .watched target container began length time ∈ (guard cfg host disk s g).deeds) :
    time = host.now ∧ SeenReady cfg host disk container length := by
  unfold guard at mem
  split at mem
  · cases mem
  split at mem
  · cases mem
  rename_i set services staged
  split at mem
  · cases mem
  rename_i engine answers
  split at mem
  · cases mem
  · cases mem
  rename_i u inspected
  have seen : ∀ exits, .watched target container began length time ∈
      (guardSample host engine s g set services u exits).deeds →
      time = host.now ∧ SeenReady cfg host disk container length := by
    intro exits sampled
    obtain ⟨same, now, runs, long, ready⟩ := guardSample_watched sampled
    rw [← same] at inspected
    exact ⟨now, engine, set, services, u, answers, staged, inspected, runs, long, ready⟩
  split at mem
  · exact seen _ mem
  · exact seen _ mem
  · cases mem

/-- Only a guard's step says that it watched a guard out, and it saw the container ready then. -/
theorem step_watched {pending : Option Target} {target : Option Release} {container : String}
    {began length time : Int}
    (mem : .watched target container began length time ∈ (step cfg host disk pending s).deeds) :
    time = host.now ∧ SeenReady cfg host disk container length := by
  have silent : ∀ {work : Work}, work.deeds = [] →
      .watched target container began length time ∈ work.deeds → False := by
    intro work none here
    rw [none] at here
    cases here
  unfold step at mem
  split at mem
  · cases mem
  · exact (silent render_noDeeds mem).elim
  · exact (silent lintStep_noDeeds mem).elim
  · exact (silent plan_noDeeds mem).elim
  · exact (silent pull_noDeeds mem).elim
  · exact (replace_noWatched mem).elim
  · exact guard_watched mem
  · exact (commit_noWatched mem).elim
  · exact (silent revert_noDeeds mem).elim

/-! ## Over ticks -/

section Ticks

variable {w : World} {p q : Process}

/-- The deeds of `q` are those of `p` and some that are neither samples nor commits. -/
def GrowsInert (p q : Process) : Prop :=
  ∃ more, q.deeds = p.deeds ++ more ∧ ∀ d ∈ more, Inert d

theorem inert_carried (order : Order) (time : Int) : Inert (.carried order time) :=
  ⟨fun _ _ _ => Deed.noConfusion, fun _ _ => Deed.noConfusion⟩

theorem inert_restarted (time : Int) : Inert (.restarted time) :=
  ⟨fun _ _ _ => Deed.noConfusion, fun _ _ => Deed.noConfusion⟩

theorem growsInert_single {d : Deed} (grows : q.deeds = p.deeds ++ [d]) (inert : Inert d) :
    GrowsInert p q := by
  refine ⟨[d], grows, ?_⟩
  intro other mem
  rw [List.mem_singleton.mp mem]
  exact inert

theorem growsInert_same (same : q.deeds = p.deeds) : GrowsInert p q :=
  ⟨[], by rw [same, List.append_nil], fun _ mem => (by cases mem)⟩

theorem GrowsInert.trans {r : Process} (one : GrowsInert p q) (two : GrowsInert q r) :
    GrowsInert p r := by
  obtain ⟨first, grows, inert⟩ := one
  obtain ⟨second, grows', inert'⟩ := two
  refine ⟨first ++ second, by rw [grows', grows, List.append_assoc], ?_⟩
  intro d mem
  exact (List.mem_append.mp mem).elim (inert d) (inert' d)

theorem growsInert_quiet (quiet : Quiet p q) : GrowsInert p q := by
  obtain ⟨more, grows, carried⟩ := quiet.deeds
  refine ⟨more, grows, ?_⟩
  intro d mem
  obtain ⟨order, time, rfl⟩ := carried d mem
  exact inert_carried order time

theorem growsInert_follow {now : Int} {named : Option Release}
    (move : FollowMove cfg now named p q) : GrowsInert p q := by
  cases move with
  | quiet quiet _ _ => exact growsInert_quiet quiet
  | noted _ => exact growsInert_same rfl
  | merged _ => exact growsInert_same rfl
  | accepted _ _ _ _ _ _ _ _ _ _ =>
      exact growsInert_single rfl ⟨fun _ _ _ => Deed.noConfusion, fun _ _ => Deed.noConfusion⟩
  | changed _ _ _ =>
      exact growsInert_single rfl ⟨fun _ _ _ => Deed.noConfusion, fun _ _ => Deed.noConfusion⟩
  | begun _ _ _ _ =>
      exact growsInert_single rfl ⟨fun _ _ _ => Deed.noConfusion, fun _ _ => Deed.noConfusion⟩

theorem growsInert_moves {now : Int} {named : Option Release}
    (moves : ReflTransGen (Move cfg now named) p q) : GrowsInert p q := by
  induction moves with
  | refl => exact growsInert_same rfl
  | tail _ move ih =>
      cases move with
      | quiet quiet => exact ih.trans (growsInert_quiet quiet)
      | follow move => exact ih.trans (growsInert_follow move)

theorem acting_growsInert (targeted : Targeted p.state) : GrowsInert p (acting cfg w p) := by
  obtain ⟨mid, orders, moves⟩ := @acting_moves cfg w p targeted
  obtain ⟨more, grows, known⟩ := orderMoves_deeds orders
  refine GrowsInert.trans ⟨more, grows, ?_⟩ (growsInert_moves moves)
  intro d mem
  rcases known d mem with ⟨order, time, rfl⟩ | rfl
  · exact inert_carried order time
  · exact inert_restarted w.now

/-- Where the process stands with its guard, in memory and in `state.json`.  A guard that was saved
is not looked at: a restart begins it again. -/
structure Guards (p : Process) : Prop where
  state : OnGuard p.deeds p.state
  saved : p.saved.rollout.step = .commit → p.saved.rollout.services ≠ [] →
    WatchedOut p.deeds p.saved.rollout.target
  commits : CommitsWatched p.deeds

theorem guards_fresh : Guards Process.fresh where
  state := onGuard_plain (fun _ same => nomatch same) (fun same => nomatch same)
  saved := fun same => nomatch same
  commits := by
    intro before target services after shape
    cases before <;> cases shape

/-- More inert deeds, and the same round or one that only begins. -/
theorem Guards.grown (guards : Guards p) (grows : GrowsInert p q) (saved : q.saved = p.saved)
    (rollout : q.state.rollout = p.state.rollout ∨ q.state.rollout.step = .render) : Guards q := by
  obtain ⟨more, deeds, inert⟩ := grows
  refine ⟨?_, ?_, ?_⟩
  · rw [deeds]
    rcases rollout with same | render
    · have grown := guards.state.append inert
      refine ⟨?_, ?_⟩
      · rw [same]
        exact grown.guard
      · rw [same]
        exact grown.commit
    · refine onGuard_plain ?_ ?_
      · intro g step
        rw [render] at step
        cases step
      · intro step
        rw [render] at step
        cases step
  · rw [deeds, saved]
    exact fun step some => (guards.saved step some).append more
  · rw [deeds]
    exact guards.commits.append fun d mem => (inert d mem).2

theorem acting_guards (targeted : Targeted p.state) (keeps : (acting cfg w p).saved = p.saved)
    (guards : Guards p) : Guards (acting cfg w p) := by
  refine guards.grown (acting_growsInert targeted) keeps ?_
  rcases @acting_rollout cfg w p targeted with same | ⟨render, -⟩
  · exact Or.inl same
  · exact Or.inr render

/-- The round's step: a guard goes on or begins, a commit follows a guard that was watched out, and
what is committed is what was watched. -/
theorem performed_guards {work : Work} (guards : Guards p) (watches : Watches p.state work) :
    Guards (performed p work) := by
  have deeds : (performed p work).deeds = p.deeds ++ work.deeds := rfl
  refine ⟨⟨?_, ?_⟩, ?_, ?_⟩
  · intro g step
    rw [deeds]
    obtain ⟨target, earlier | ⟨early, begins⟩⟩ := watches.guard g step
    · obtain ⟨was, atGuard, container, started, passed⟩ := earlier
      obtain ⟨before, between, shape, all⟩ := guards.state.guard was atGuard
      refine ⟨before, between ++ work.deeds, ?_, all.append passed⟩
      rw [shape, container, started]
      show _ = before ++ .guardBegan work.state.rollout.target g.container g.started :: _
      rw [target]
      simp
    · refine ⟨p.deeds ++ early, [], ?_, fun _ _ _ mem => (by cases mem)⟩
      show _ = _ ++ Deed.guardBegan work.state.rollout.target g.container g.started :: _
      rw [target, begins, List.append_assoc]
  · intro step some
    rw [deeds]
    show WatchedOut (p.deeds ++ work.deeds) work.state.rollout.target
    obtain ⟨target, nothing | ⟨g, guardS, time, atGuard, long, did⟩⟩ := watches.commit step
    · exact absurd nothing some
    · obtain ⟨before, between, shape, all⟩ := guards.state.guard g atGuard
      refine ⟨before, between ++ [.sampled g.container time true], [], g.container, g.started,
        guardS, time, ?_, long, all.append (allPassed_sampled _ _)⟩
      rw [target, shape, did]
      simp
  · intro step some
    rw [deeds]
    exact (guards.saved step some).append work.deeds
  · rw [deeds]
    by_cases commits : ∃ target services, .committed target services ∈ work.deeds
    · obtain ⟨target, services, mem⟩ := commits
      obtain ⟨step, names, served, did⟩ := watches.committed target services mem
      rw [did]
      intro before other others after shape some
      rcases List.append_eq_append_iff.mp shape with ⟨between, rfl, rest⟩ | ⟨between, whole, rest⟩
      · cases between with
        | nil =>
            rw [List.nil_append] at rest
            injection rest with same _
            injection same with sameTarget sameServices
            subst sameTarget sameServices
            rw [← served] at some
            rw [List.append_nil, ← names]
            exact guards.state.commit step some
        | cons first more =>
            injection rest with _ nothing
            cases more <;> cases nothing
      · cases between with
        | nil =>
            rw [List.nil_append] at rest
            injection rest with same _
            injection same with sameTarget sameServices
            subst sameTarget sameServices
            rw [← served] at some
            rw [List.append_nil] at whole
            rw [← whole, ← names]
            exact guards.state.commit step some
        | cons first more =>
            injection rest with same _
            subst same
            exact guards.commits before other others more whole some
    · exact guards.commits.append fun d mem target services same =>
        commits ⟨target, services, same ▸ mem⟩

theorem ticked_guards (trusted : Trusted cfg p) (guards : Guards p) :
    Guards (ticked cfg w p) := by
  have acted := acting_guards (w := w) trusted.state.targeted
    (advances_acting w trusted.state).saved guards
  have stepped : Guards (performed (acting cfg w p) (workOf cfg w (acting cfg w p))) := by
    unfold workOf
    split
    · exact acted.grown ⟨[], rfl, fun _ mem => (by cases mem)⟩ rfl (Or.inl rfl)
    · exact performed_guards acted (step_watches _)
  have quiet := closing_quiet (w := w) (performed (acting cfg w p) (workOf cfg w (acting cfg w p)))
  exact stepped.grown (growsInert_quiet quiet) quiet.saved (Or.inl quiet.rollout)

theorem failedAfter_guards (trusted : Trusted cfg p) (guards : Guards p) (done : Nat) :
    Guards (failedAfter cfg w done p) := by
  have acted := acting_guards (w := w) trusted.state.targeted
    (advances_acting w trusted.state).saved guards
  have stepped : Guards { acting cfg w p with
      disk := (acting cfg w p).disk.after ((workOf cfg w (acting cfg w p)).ops.take done) } :=
    ⟨acted.state, acted.saved, acted.commits⟩
  have quiet := closing_quiet (w := w) { acting cfg w p with
    disk := (acting cfg w p).disk.after ((workOf cfg w (acting cfg w p)).ops.take done) }
  exact stepped.grown (growsInert_quiet quiet) quiet.saved (Or.inl quiet.rollout)

theorem brokenOff_guards (trusted : Trusted cfg p) (guards : Guards p) (done : Nat) :
    Guards (brokenOff cfg w done p) := by
  unfold brokenOff
  split
  · exact ticked_guards trusted guards
  · exact failedAfter_guards trusted guards done

/-- A guard that was saved begins again after a restart; a commit that was saved had been
watched. -/
theorem restarted_guards (guards : Guards p) (time : Int) : Guards (restarted time p) := by
  refine ⟨⟨?_, ?_⟩, guards.saved, guards.commits⟩
  · intro g step
    have stepIs : (resume p.saved time).rollout.step = .guard g := step
    unfold resume at stepIs
    split at stepIs
    · cases stepIs
    · cases stepIs
    · cases stepIs
    · rename_i noGuard
      exact absurd stepIs (noGuard g)
  · show (resume p.saved time).rollout.step = .commit → (resume p.saved time).rollout.services ≠ [] →
      WatchedOut p.deeds (resume p.saved time).rollout.target
    generalize shape : resume p.saved time = again
    unfold resume at shape
    split at shape
    · subst shape
      exact fun step => nomatch step
    · subst shape
      exact fun step => nomatch step
    · subst shape
      exact fun step => nomatch step
    · subst shape
      exact guards.saved

theorem guards_next (trusted : Trusted cfg p) (guards : Guards p) (e : Event) :
    Guards (p.next cfg e) := by
  cases e with
  | tick w =>
      have ticks := ticked_guards (w := w) trusted guards
      exact ⟨ticks.state, ticks.state.commit, ticks.commits⟩
  | unsaved w done => exact brokenOff_guards trusted guards done
  | dies w done time => exact restarted_guards (brokenOff_guards trusted guards done) time
  | restart time => exact restarted_guards guards time

theorem guards_run {events : List Event} (trusted : Trusted cfg p) (guards : Guards p) :
    Guards (p.run cfg events) := by
  induction events generalizing p with
  | nil => exact guards
  | cons e rest ih => exact ih (trusted_next trusted e) (guards_next trusted guards e)

/-- The running release changes with a commit only, which is a deed with the services the round
replaced. -/
theorem ticked_changes (trusted : Trusted cfg p)
    (changes : (ticked cfg w p).state.applied ≠ p.state.applied) :
    ∃ target, (ticked cfg w p).state.applied = some target ∧
      .committed target (acting cfg w p).state.rollout.services ∈
        (workOf cfg w (acting cfg w p)).deeds := by
  have closes : (ticked cfg w p).state.applied = (workOf cfg w (acting cfg w p)).state.applied :=
    (closing_quiet _).trust.applied
  rw [closes] at changes ⊢
  have before := @acting_applied cfg w p trusted.state.targeted
  have stepped := @workOf_stepped cfg w (acting cfg w p)
  generalize shape : (workOf cfg w (acting cfg w p)).deeds = deeds at stepped ⊢
  cases stepped with
  | kept trust _ _ _ _ _ _ => exact absurd (trust.applied.trans before) changes
  | counted trust _ _ _ _ _ _ => exact absurd (trust.applied.trans before) changes
  | ended trust _ _ _ => exact absurd (trust.applied.trans before) changes
  | committed _ _ _ _ _ _ _ applied _ _ _ => exact ⟨_, applied, List.mem_singleton_self _⟩

end Ticks

/-! ## What survives -/

/-- What a process that may die at any moment leaves to the next. -/
structure Survives (cfg : Config) (p : Process) : Prop where
  /-- `last-good/` is a whole rendered set of the release `state.json` says is applied. -/
  good : ∀ release, p.saved.rollout.step ≠ .commit → p.saved.applied = some release →
    Holding cfg release p.disk.lastGood
  /-- A commit that was saved goes through from what the disk holds. -/
  commit : p.saved.rollout.step = .commit → ∀ host : Host, ∃ release,
    p.saved.rollout.target = some release ∧
      (Agent.commit host p.disk p.saved).state.applied = some release ∧
      (p.disk.after (Agent.commit host p.disk p.saved).ops).staging = none ∧
      Holding cfg release (p.disk.after (Agent.commit host p.disk p.saved).ops).lastGood
  /-- A release that replaced services was committed only after its guard was watched out. -/
  watched : CommitsWatched p.deeds
  /-- The running release changes by such a commit. -/
  applied : ∀ w, (ticked cfg w p).state.applied ≠ p.state.applied →
    ∃ target, (ticked cfg w p).state.applied = some target ∧
      .committed target (acting cfg w p).state.rollout.services ∈
        (workOf cfg w (acting cfg w p)).deeds
  /-- A guard is watched out at a sample that saw the container running and ready. -/
  seen : ∀ w target container began length time,
    .watched target container began length time ∈ (workOf cfg w (acting cfg w p)).deeds →
      time = w.now ∧ SeenReady cfg w.toHost (acting cfg w p).disk container length

theorem last_good_survives (cfg : Config) (events : List Event)
    (untorn : Untorn cfg Process.fresh events) : Survives cfg (Process.fresh.run cfg events) := by
  have whole := whole_run whole_fresh untorn
  have guards : Guards (Process.fresh.run cfg events) := guards_run trusted_fresh guards_fresh
  refine ⟨?_, fun saved host => commit_again whole saved host, guards.commits, ?_, ?_⟩
  · intro release notCommit runs
    exact whole.saved.good notCommit release runs
  · intro w changes
    exact ticked_changes whole.trusted changes
  · intro w target container began length time mem
    unfold workOf at mem
    split at mem
    · cases mem
    · exact step_watched mem

instance (saved : State) (step : Step) (ops : List Op) : Decidable (Torn saved step ops) :=
  inferInstanceAs (Decidable (ops ≠ [] ∧ (_ ∨ _)))

instance (cfg : Config) (p : Process) (e : Event) : Decidable (Tears cfg p e) :=
  match e with
  | .unsaved _ _ | .dies _ _ _ => inferInstanceAs (Decidable (Torn _ _ _))
  | .tick _ | .restart _ => inferInstanceAs (Decidable False)

instance decidableUntorn (cfg : Config) : ∀ (p : Process) (events : List Event),
    Decidable (Untorn cfg p events)
  | _, [] => inferInstanceAs (Decidable True)
  | p, e :: rest =>
      have := decidableUntorn cfg (p.next cfg e) rest
      inferInstanceAs (Decidable (¬ Tears cfg p e ∧ Untorn cfg (p.next cfg e) rest))

/-- The process dies when its first commit has emptied `last-good/`, and the next one commits. -/
theorem last_good_survives_death :
    (Process.fresh.run oneService
        [.tick (naming 0 (vX 1 0 0)), .tick (calmWorld 5), .tick (calmWorld 10),
          .dies (calmWorld 15) 1 20]).saved.rollout.step = .commit ∧
      Survives oneService (Process.fresh.run oneService
        [.tick (naming 0 (vX 1 0 0)), .tick (calmWorld 5), .tick (calmWorld 10),
          .dies (calmWorld 15) 1 20]) :=
  ⟨by decide, last_good_survives oneService _ (by decide)⟩

/-- A round of the second release is planned when the pool names the third: its render is through
when the process dies, and the second round goes on with what the third rendered. -/
def tornRun : List Event :=
  firstRound (vX 1 0 0) ++
    [.tick (naming 100000 (vX 2 0 0)), .tick (calmWorld 100005),
      .dies (naming 200000 (vX 3 0 0)) 100 200005, .tick (calmWorld 200010),
      .tick (calmWorld 200015)]

theorem last_good_torn :
    (Process.fresh.run oneService tornRun).saved.rollout.step = .idle ∧
      (Process.fresh.run oneService tornRun).saved.applied = some (vX 2 0 0) ∧
      pinsRelease (Process.fresh.run oneService tornRun).disk.lastGood = some (vX 3 0 0) := by
  decide

end OmarchyPool.Agent
