/-
# OmarchyPool.Dispatch.Protocol -- what each deed is done under

The protocol the dispatcher keeps, with nothing of its control flow: `Guard meets d h` is what holds
of the host whenever a run takes the deed `d`.  A lease's file goes only when nothing of the lease is
left in the engine, its end is told only when its container is dead, a container is run only for a
lease that has not run since it was taken, a slot is one nobody holds.

`Sound` is what holds of the host at every moment, dead or alive; `Session` what holds from the end
of a re-adoption on.  `Beside` is what an event may change, `Along` what a step of the dispatcher
leaves of the table and of the files' names.  `Sound` is kept by an event (`Sound.beside`), by a
death (`Sound.die`) and, deed by deed, by what is done under its guard.

Removals may fail, and a sidecar may start with an error for an answer: what rests on neither is
stated under `Removes` and `Starts`, which say that the runs considered have none.
-/
import OmarchyPool.Dispatch.Dispatcher

namespace OmarchyPool.Dispatch

open OmarchyPool.Lib

set_option autoImplicit false

/-! ## The engine's side of a lease -/

/-- No task container of the lease. -/
def Absent (h : Host) (k : Key) : Prop := ∀ c ∈ h.containers, c.key = k → c.role ≠ .task

/-- Nothing of the lease in the engine. -/
def Bare (h : Host) (k : Key) : Prop := ∀ c ∈ h.containers, c.key ≠ k

/-- Its task container ended, or is not there. -/
def Dead (h : Host) (k : Key) : Prop :=
  ∀ c ∈ h.containers, c.key = k → c.role = .task → c.status.ended = true

/-- Its agent sidecar never started. -/
def Quiet (h : Host) (k : Key) : Prop :=
  (∀ c ∈ h.containers, c.key = k → c.role = .agent → c.status ≠ .running) ∧ h.usage.get k = none

theorem Bare.absent {h : Host} {k : Key} (bare : Bare h k) : Absent h k :=
  fun c member same => absurd same (bare c member)

theorem Absent.dead {h : Host} {k : Key} (absent : Absent h k) : Dead h k :=
  fun c member same task => absurd task (absent c member same)

def Container.name (c : Container) : Key × Role := (c.key, c.role)

/-! ## What happens beside the dispatcher -/

/-- A container before and after an event. -/
structure Settles (c c' : Container) : Prop where
  key : c'.key = c.key
  role : c'.role = c.role
  calls : c'.calls = c.calls
  ended : c.status.ended = true → c'.status.ended = true
  running : c'.status = .running → c.status = .running ∨ c.role = .task

theorem Settles.refl (c : Container) : Settles c c := ⟨rfl, rfl, rfl, id, .inl⟩

theorem Settles.trans {a b c : Container} (first : Settles a b) (second : Settles b c) : Settles a c where
  key := second.key.trans first.key
  role := second.role.trans first.role
  calls := second.calls.trans first.calls
  ended := fun isOver => second.ended (first.ended isOver)
  running := fun runs => (second.running runs).elim first.running fun task => .inr (first.role ▸ task)

structure Beside (s t : Host) : Prop where
  leases : t.leases = s.leases
  hand : t.hand = s.hand
  holds : t.holds = s.holds
  files : t.files = s.files
  ledger : t.ledger = s.ledger
  takes : t.takes = s.takes
  runs : t.runs = s.runs
  contained : ∀ c' ∈ t.containers, ∃ c ∈ s.containers, Settles c c'
  named : (t.containers.map Container.name).Sublist (s.containers.map Container.name)
  usage : ∀ k u', t.usage.get k = some u' → ∃ u, s.usage.get k = some u ∧ u'.counted = u.counted

theorem Beside.refl (s : Host) : Beside s s :=
  ⟨rfl, rfl, rfl, rfl, rfl, rfl, rfl, fun c member => ⟨c, member, .refl c⟩, List.Sublist.refl _,
    fun _ u found => ⟨u, found, rfl⟩⟩

theorem Beside.trans {a b c : Host} (first : Beside a b) (second : Beside b c) : Beside a c where
  leases := second.leases.trans first.leases
  hand := second.hand.trans first.hand
  holds := second.holds.trans first.holds
  files := second.files.trans first.files
  ledger := second.ledger.trans first.ledger
  takes := second.takes.trans first.takes
  runs := second.runs.trans first.runs
  contained := by
    intro last member
    obtain ⟨middle, inMiddle, settled⟩ := second.contained last member
    obtain ⟨old, inOld, settled'⟩ := first.contained middle inMiddle
    exact ⟨old, inOld, settled'.trans settled⟩
  named := second.named.trans first.named
  usage := by
    intro k u found
    obtain ⟨u', found', same⟩ := second.usage k u found
    obtain ⟨u'', found'', same'⟩ := first.usage k u' found'
    exact ⟨u'', found'', same.trans same'⟩

theorem settle_settles (k : Key) (role : Role) (status : Status) (c : Container) :
    Settles c (Event.settle k role status c) := by
  unfold Event.settle
  split
  · rename_i fits
    obtain ⟨-, -, going, may⟩ := fits
    refine ⟨rfl, rfl, rfl, fun isOver => ?_, may⟩
    rw [going] at isOver
    cases isOver
  · exact .refl c

/-- Every event happens beside. -/
theorem happen_beside (what : Event) (h : Host) : Beside h (what.happen h) := by
  have same := Beside.refl h
  cases what with
  | answers outside => exact { same with }
  | passes seconds =>
      refine { same with usage := fun k u' found => ?_ }
      simp only [Event.happen] at found
      split at found
      · exact ⟨u', found, rfl⟩
      · rw [OrderedMap.get_map Usage.midnight] at found
        obtain ⟨u, was, rfl⟩ := Option.map_eq_some_iff.mp found
        exact ⟨u, was, rfl⟩
  | becomes k role status =>
      refine { same with contained := fun c' member => ?_, named := ?_ }
      · obtain ⟨c, inOld, rfl⟩ := List.mem_map.mp member
        exact ⟨c, inOld, settle_settles k role status c⟩
      · have names : ∀ c, (Event.settle k role status c).name = c.name := fun c =>
          Prod.ext (settle_settles k role status c).key (settle_settles k role status c).role
        simp only [Event.happen, List.map_map, Function.comp_def, names]
        exact List.Sublist.refl _
  | vanishes k role =>
      refine { same with contained := fun c' member => ?_, named := ?_ }
      · exact ⟨c', (List.mem_filter.mp member).1, .refl c'⟩
      · exact List.filter_sublist.map _
  | modelCall k =>
      simp only [Event.happen]
      split
      · rename_i u found
        split
        · refine { same with usage := fun j u' has => ?_ }
          simp only at has
          rw [OrderedMap.get_set] at has
          split at has
          · rename_i here
            cases has
            exact ⟨u, here ▸ found, rfl⟩
          · exact ⟨u', has, rfl⟩
        · exact same
      · exact same

section Beside

variable {s t : Host} {k : Key}

theorem Beside.fileOf (b : Beside s t) (k : Key) : t.fileOf k = s.fileOf k := by
  unfold Host.fileOf
  rw [b.files]

theorem Absent.beside (absent : Absent s k) (b : Beside s t) : Absent t k := by
  intro c' member same task
  obtain ⟨c, inOld, settled⟩ := b.contained c' member
  exact absent c inOld (settled.key ▸ same) (settled.role ▸ task)

theorem Bare.beside (bare : Bare s k) (b : Beside s t) : Bare t k := by
  intro c' member same
  obtain ⟨c, inOld, settled⟩ := b.contained c' member
  exact bare c inOld (settled.key ▸ same)

theorem Dead.beside (dead : Dead s k) (b : Beside s t) : Dead t k := by
  intro c' member same task
  obtain ⟨c, inOld, settled⟩ := b.contained c' member
  exact settled.ended (dead c inOld (settled.key ▸ same) (settled.role ▸ task))

theorem Beside.usage_none (b : Beside s t) (none_ : s.usage.get k = none) : t.usage.get k = none := by
  by_contra some_
  obtain ⟨u', found⟩ := Option.ne_none_iff_exists'.mp some_
  obtain ⟨u, was, -⟩ := b.usage k u' found
  rw [none_] at was
  cases was

theorem Quiet.beside (quiet : Quiet s k) (b : Beside s t) : Quiet t k := by
  refine ⟨fun c' member same agent runs => ?_, b.usage_none quiet.2⟩
  obtain ⟨c, inOld, settled⟩ := b.contained c' member
  rcases settled.running runs with running | task
  · exact quiet.1 c inOld (settled.key ▸ same) (settled.role ▸ agent) running
  · rw [settled.role, task] at agent
    cases agent

end Beside

/-! ## What is kept of each lease -/

section Sound

variable (meets : Deed → Host → Prop)

/-- Every removal of the runs considered succeeds. -/
def Removes : Prop :=
  (∀ k h, meets (.removeLease k) h → h.outside.removes = true) ∧
    ∀ k role h, meets (.removeName k role) h → h.outside.removes = true

/-- No agent sidecar of the runs considered starts with an error for an answer. -/
def Starts : Prop := ∀ k h, meets (.call k (.start .agent)) h → h.outside.ran ≠ .failedDone

/-- A lease that has not started has run once less than it was taken, and holds nothing. -/
def Fresh (h : Host) (l : Lease) : Prop :=
  l.phase = .preparing →
    h.runs.count l.key < h.takes.count l.key ∧ l.netSlot = none ∧ l.agentCalls = none

/-- What the table and the file of a lease always agree on. -/
structure Same (l l' : Lease) : Prop where
  task : l.task = l'.task
  gen : l.gen = l'.gen
  units : l.units = l'.units
  netSlot : l.netSlot = l'.netSlot
  agentCalls : l.agentCalls = l'.agentCalls

theorem Same.refl (l : Lease) : Same l l := ⟨rfl, rfl, rfl, rfl, rfl⟩

theorem Same.key {l l' : Lease} (same : Same l l') : l.key = l'.key := by
  unfold Lease.key
  rw [same.task, same.gen]

theorem Same.isJob {l l' : Lease} (same : Same l l') : l.isJob = l'.isJob := by
  unfold Lease.isJob
  rw [same.task]

structure Kept (h : Host) (live : Live) : Prop where
  filed : ∃ l, h.fileOf live.key = some (some l) ∧ Same live.lease l
  fresh : Fresh h live.lease
  fin : live.fin = true → Removes meets → Dead h live.key

/-- What holds of a host at every moment. -/
structure Sound (h : Host) : Prop where
  valid : h.files.Valid
  named : (h.containers.map Container.name).Nodup
  table : (h.leases.map Live.key).Nodup
  kept : ∀ live ∈ h.leases, Kept meets h live
  files : ∀ k l, h.fileOf k = some (some l) → l.key = k ∧ Fresh h l
  ran : ∀ k, h.runs.count k ≤ h.takes.count k
  tasks : Removes meets → ∀ c ∈ h.containers, c.role = .task →
    ∀ l, h.fileOf c.key = some (some l) → l.isJob = false
  usage : Removes meets → Starts meets → ∀ k u, h.usage.get k = some u →
    ∃ l, h.fileOf k = some (some l) ∧ l.agentCalls.isSome = true

/-- What holds from the end of a re-adoption on: every file is a lease's that is held, and every
task container a file's. -/
structure Session (h : Host) : Prop where
  covers : ∀ k, (h.fileOf k).isSome = true → k ∈ h.leases.map Live.key ∨ h.hand = some k
  owned : Removes meets → ∀ c ∈ h.containers, c.role = .task → ∃ l, h.fileOf c.key = some (some l)

structure Rested (h : Host) : Prop where
  hand : h.hand = none
  session : Session meets h

/-- A lease out of the table, to be stepped. -/
structure InHand (h : Host) (live : Live) : Prop where
  hand : h.hand = some live.key
  out : live.key ∉ h.leases.map Live.key
  kept : Kept meets h live
  session : Session meets h

/-- A lease whose file is gone, still out of the table. -/
structure Gone (h : Host) (k : Key) : Prop where
  hand : h.hand = some k
  out : k ∉ h.leases.map Live.key
  file : h.fileOf k = none
  session : Session meets h

/-! ## The guards -/

/-- What a save may change of a lease's file. -/
structure Continues (cfg : Config) (h : Host) (l₀ l : Lease) : Prop where
  task : l.task = l₀.task
  gen : l.gen = l₀.gen
  units : l.units = l₀.units
  netSlot : l.netSlot = l₀.netSlot ∨
    (∃ n, l.netSlot = some n ∧ n ∉ h.slotsUsed) ∧ l.key ∉ h.leases.map Live.key ∧ Session meets h
  agentCalls : l.agentCalls = l₀.agentCalls ∨
    l₀.agentCalls = none ∧ l.key ∉ h.leases.map Live.key ∧ Session meets h ∧
      (∃ n, l.agentCalls = some n ∧ ∃ now before, before.ledger = h.ledger ∧ meets (.grant now) before ∧
        Day.spent h.ledger now + h.reserved + n ≤ cfg.caps.callsPerDay) ∨
    l.agentCalls = none ∧ l.key ∉ h.leases.map Live.key ∧ (Removes meets → Starts meets → Quiet h l.key)

/-- What a lease taken now fits into. -/
def Fits (cfg : Config) (leases : List Live) (l : Lease) : Prop :=
  if l.isJob then l.units ≤ jobFree cfg leases else l.units ≤ freeUnits cfg leases

def CallGuard (h : Host) (k : Key) : Call → Prop
  | .create .agent calls => ∃ l, h.fileOf k = some (some l) ∧ l.agentCalls = some calls
  | .create .task _ => False
  | .start .agent => ∃ l calls, h.fileOf k = some (some l) ∧ l.agentCalls = some calls ∧
      ∀ c ∈ h.containers, c.key = k → c.role = .agent → c.calls = calls
  | .start .task => False
  | .run => h.runs.count k < h.takes.count k ∧ k ∉ h.leases.map Live.key ∧
      ∃ l, h.fileOf k = some (some l) ∧ l.isJob = false ∧ l.phase ≠ .preparing
  | _ => True

/-- What holds of the host whenever the deed is done. -/
def Guard (cfg : Config) (h : Host) : Deed → Prop
  | .putBack live => ∃ l, h.fileOf live.key = some (some l) ∧ Same live.lease l
  | .letGo k => h.fileOf k = none ∧ (Removes meets → Absent h k)
  | .takeOut _ => h.hand = none
  | .hold slot _ => slot ∉ h.slotsUsed ∧ Rested meets h
  | .take l => Rested meets h ∧ h.fileOf l.key = none ∧ l.phase = .preparing ∧ l.netSlot = none ∧
      l.agentCalls = none ∧ Fits cfg h.leases l
  | .save l => ∃ l₀, h.fileOf l.key = some (some l₀) ∧ Continues meets cfg h l₀ l
  | .unlink k => (Removes meets → Bare h k) ∧ h.usage.get k = none ∧ k ∉ h.leases.map Live.key
  | .discard k => h.fileOf k = some none ∧ (Removes meets → Absent h k)
  | .count k cap => (∃ l, h.fileOf k = some (some l) ∧ l.agentCalls = some cap) ∧
      (Removes meets → Bare h k)
  | .clearDir k => ∃ l, h.fileOf k = some (some l) ∧
      (l.agentCalls = none ∨ ∀ u, h.usage.get k = some u → u.counted = true)
  | .call k c => CallGuard h k c
  | .report (.ended k _) => Removes meets → Dead h k
  | .report (.finished k _) => Removes meets → Dead h k
  | _ => True

/-- The dispatcher's contract. -/
def contract (cfg : Config) : Contract Host Deed where
  inv := Sound meets
  rely := Beside
  guar := fun s t => ∃ d : Deed, meets d s ∧ Guard meets cfg s d ∧ t = d.effect s
  meets := meets

end Sound

end OmarchyPool.Dispatch
