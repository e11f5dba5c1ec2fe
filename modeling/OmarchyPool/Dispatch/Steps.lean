/-
# OmarchyPool.Dispatch.Steps -- the dispatcher keeps its protocol, lease by lease

Each function that acts on one lease, against the contract: every deed is done under its guard, and
what is known of the lease in hand at the end.  `Calm` is what a statement leaves that touches
neither the table nor a file; every assertion about a lease stands it.

* `cleanup_spec`, `stepEnding_spec`: a lease's file goes last, its container before it.
* `runPlan_spec`, `launch_spec`: a container is run once for a lease, and a sidecar whose start
  failed is quiet.
* `step_spec`: a step leaves the lease in hand, or gone.
-/
import OmarchyPool.Dispatch.Keeps

namespace OmarchyPool.Dispatch

open OmarchyPool.Lib

set_option autoImplicit false

variable {meets : Deed → Host → Prop} {cfg : Config} {s t h : Host} {live : Live}

/-! ## What the assertions stand -/

structure Calm (s t : Host) : Prop where
  leases : t.leases = s.leases
  hand : t.hand = s.hand
  files : t.files = s.files
  takes : t.takes = s.takes
  runs : t.runs = s.runs
  contained : ∀ c' ∈ t.containers, ∃ c ∈ s.containers, Settles c c'

theorem Beside.calm (b : Beside s t) : Calm s t :=
  ⟨b.leases, b.hand, b.files, b.takes, b.runs, b.contained⟩

theorem Lessens.calm (less : Lessens s t) (leases : t.leases = s.leases) (hand : t.hand = s.hand) : Calm s t :=
  ⟨leases, hand, less.files, less.takes, less.runs, less.contained⟩

theorem Calm.fileOf (calm : Calm s t) (k : Key) : t.fileOf k = s.fileOf k := by
  unfold Host.fileOf
  rw [calm.files]

theorem Calm.fresh (calm : Calm s t) {l : Lease} (fresh : Fresh s l) : Fresh t l := by
  unfold Fresh
  rw [calm.runs, calm.takes]
  exact fresh

theorem Bare.calm {k : Key} (bare : Bare s k) (calm : Calm s t) : Bare t k := by
  intro c' member same
  obtain ⟨c, inOld, settled⟩ := calm.contained c' member
  exact bare c inOld (settled.key ▸ same)

theorem Dead.calm {k : Key} (dead : Dead s k) (calm : Calm s t) : Dead t k := by
  intro c' member same task
  obtain ⟨c, inOld, settled⟩ := calm.contained c' member
  exact settled.ended (dead c inOld (settled.key ▸ same) (settled.role ▸ task))

theorem Kept.calm (kept : Kept meets s live) (calm : Calm s t) : Kept meets t live where
  filed := by
    rw [calm.fileOf]
    exact kept.filed
  fresh := calm.fresh kept.fresh
  fin := fun spawned removes => (kept.fin spawned removes).calm calm

theorem Session.calm (session : Session meets s) (calm : Calm s t) : Session meets t where
  covers := by
    intro k
    rw [calm.fileOf, calm.leases, calm.hand]
    exact session.covers k
  owned := by
    intro removes c' member task
    obtain ⟨c, inOld, settled⟩ := calm.contained c' member
    rw [calm.fileOf, settled.key]
    exact session.owned removes c inOld (settled.role ▸ task)

theorem InHand.calm (held : InHand meets s live) (calm : Calm s t) : InHand meets t live where
  hand := calm.hand.trans held.hand
  out := calm.leases ▸ held.out
  kept := held.kept.calm calm
  session := held.session.calm calm

theorem Rested.calm (rested : Rested meets s) (calm : Calm s t) : Rested meets t :=
  ⟨calm.hand.trans rested.hand, rested.session.calm calm⟩

theorem Gone.calm {k : Key} (gone : Gone meets s k) (calm : Calm s t) : Gone meets t k where
  hand := calm.hand.trans gone.hand
  out := calm.leases ▸ gone.out
  file := (calm.fileOf k).trans gone.file
  session := gone.session.calm calm

/-! ## Statements -/

/-- A program that does not fail, and where it ends. -/
def Ends {α : Type} (post : α → Host → Prop) : Except String α → Host → Prop
  | .ok value, t => post value t
  | .error _, _ => False

/-- A program that may fail. -/
def Tries {α : Type} (post : α → Host → Prop) : Except String α → Host → Prop
  | .ok value, t => post value t
  | .error _, _ => True

section Rules

variable {α β : Type} {post : Except String β → Host → Prop} {rest : α → Prog β}

theorem spec_act {d : Deed} {read : Host → α}
    (after : ∀ t, Beside s t → Sound meets t → meets d t →
      Sound meets (d.effect t) ∧ Guard meets cfg t d ∧
        (rest (read t)).Spec (contract meets cfg) (d.effect t) post) :
    (act d read >>= rest).Spec (contract meets cfg) s post := by
  intro t beside sound met
  obtain ⟨kept, guarded, next⟩ := after t beside sound met
  exact ⟨kept, ⟨d, met, guarded, rfl⟩, next⟩

theorem spec_look {read : Host → α}
    (after : ∀ t, Beside s t → Sound meets t → (rest (read t)).Spec (contract meets cfg) t post) :
    (look read >>= rest).Spec (contract meets cfg) s post :=
  spec_act fun t beside sound _ => ⟨sound, trivial, after t beside sound⟩

/-- A statement at the end of a program. -/
theorem spec_last {d : Deed} {post : Except String Unit → Host → Prop}
    (after : ∀ t, Beside s t → Sound meets t → meets d t →
      Sound meets (d.effect t) ∧ Guard meets cfg t d ∧ post (.ok ()) (d.effect t)) :
    (does d).Spec (contract meets cfg) s post := by
  intro t beside sound met
  obtain ⟨kept, guarded, ended⟩ := after t beside sound met
  exact ⟨kept, ⟨d, met, guarded, rfl⟩, ended⟩

theorem spec_read {read : Host → β}
    (after : ∀ t, Beside s t → Sound meets t → post (.ok (read t)) t) :
    (look read).Spec (contract meets cfg) s post :=
  fun t beside sound met => ⟨sound, ⟨.look, met, trivial, rfl⟩, after t beside sound⟩

theorem spec_then {p : Prog α} {mid : α → Host → Prop} (first : p.Spec (contract meets cfg) s (Ends mid))
    (after : ∀ value t, mid value t → (rest value).Spec (contract meets cfg) t post) :
    (p >>= rest).Spec (contract meets cfg) s post := by
  refine Program.Spec.bind (first.mono fun result t ended => ?_)
  cases result with
  | ok value => exact after value t ended
  | error e => exact absurd ended id

theorem spec_tries {p : Prog α} {mid : α → Host → Prop} {post : β → Host → Prop}
    (first : p.Spec (contract meets cfg) s (Tries mid))
    (after : ∀ value t, mid value t → (rest value).Spec (contract meets cfg) t (Tries post)) :
    (p >>= rest).Spec (contract meets cfg) s (Tries post) := by
  refine Program.Spec.bind (first.mono fun result t ended => ?_)
  cases result with
  | ok value => exact after value t ended
  | error e => exact trivial

theorem Ends.tries {p : Prog β} {post : β → Host → Prop} (spec : p.Spec (contract meets cfg) s (Ends post)) :
    p.Spec (contract meets cfg) s (Tries post) := by
  refine spec.mono fun result t ended => ?_
  cases result with
  | ok value => exact ended
  | error e => exact trivial

end Rules

/-! ## Removals and reports -/

theorem beside_filter (p : Container → Bool) (h : Host) :
    Beside h { h with containers := h.containers.filter p } :=
  { Beside.refl h with
    contained := fun c member => ⟨c, (List.mem_filter.mp member).1, .refl c⟩
    named := List.filter_sublist.map _ }

theorem beside_removeLease (k : Key) (h : Host) : Beside h (Deed.effect (.removeLease k) h) := by
  show Beside h (if h.outside.removes then _ else h)
  split
  · exact beside_filter _ h
  · exact .refl h

theorem beside_removeName (k : Key) (role : Role) (h : Host) :
    Beside h (Deed.effect (.removeName k role) h) := by
  show Beside h (if h.outside.removes then _ else h)
  split
  · exact beside_filter _ h
  · exact .refl h

theorem beside_report (r : Report) (h : Host) : Beside h (Deed.effect (.report r) h) := { Beside.refl h with }

theorem beside_remember (memo : Memo) (h : Host) : Beside h (Deed.effect (.remember memo) h) :=
  { Beside.refl h with }

theorem bare_removeLease {k : Key} (removed : h.outside.removes = true) :
    Bare (Deed.effect (.removeLease k) h) k := by
  intro c member
  simp only [Deed.effect, removed, if_true] at member
  simpa using (List.mem_filter.mp member).2

theorem absent_removeName {k : Key} (removed : h.outside.removes = true) :
    Absent (Deed.effect (.removeName k .task) h) k := by
  intro c member same task
  simp only [Deed.effect, removed, if_true] at member
  have kept := (List.mem_filter.mp member).2
  simp [same, task] at kept

section Removals

variable {β : Type} {post : Except String β → Host → Prop} {rest : Unit → Prog β} {k : Key}

/-- A lease's containers are removed: under `Removes`, nothing of it is left. -/
theorem spec_removeLease
    (after : ∀ t, Beside s t → (Removes meets → Bare t k) → (rest ()).Spec (contract meets cfg) t post) :
    (does (.removeLease k) >>= rest).Spec (contract meets cfg) s post := by
  refine spec_act fun t beside sound met => ?_
  have removed := beside_removeLease k t
  exact ⟨sound.beside removed, trivial,
    after _ (beside.trans removed) fun removes => bare_removeLease (removes.1 k t met)⟩

theorem spec_removeName {role : Role}
    (after : ∀ t, Beside s t → (Removes meets → role = .task → Absent t k) →
      (rest ()).Spec (contract meets cfg) t post) :
    (does (.removeName k role) >>= rest).Spec (contract meets cfg) s post := by
  refine spec_act fun t beside sound met => ?_
  have removed := beside_removeName k role t
  refine ⟨sound.beside removed, trivial, after _ (beside.trans removed) ?_⟩
  rintro removes rfl
  exact absent_removeName (removes.2 k .task t met)

theorem spec_report {r : Report} (guarded : ∀ t, Beside s t → Guard meets cfg t (.report r))
    (after : ∀ t, Beside s t → (rest ()).Spec (contract meets cfg) t post) :
    (does (.report r) >>= rest).Spec (contract meets cfg) s post := by
  refine spec_act fun t beside sound met => ?_
  have told := beside_report r t
  exact ⟨sound.beside told, guarded t beside, after _ (beside.trans told)⟩

end Removals

theorem removeNames_spec (names : List (Key × Role)) (s : Host) :
    (removeNames names).Spec (contract meets cfg) s
      (Ends fun _ t => Beside s t ∧ (Removes meets → ∀ c ∈ t.containers, c.name ∉ names)) := by
  induction names generalizing s with
  | nil => exact ⟨.refl s, fun _ c _ => List.not_mem_nil⟩
  | cons name rest ih =>
      refine spec_act fun t beside sound met => ?_
      have removed := beside_removeName name.1 name.2 t
      refine ⟨sound.beside removed, trivial, (ih _).mono fun result u ended => ?_⟩
      cases result with
      | error e => exact ended
      | ok value =>
          obtain ⟨later, swept⟩ := ended
          refine ⟨(beside.trans removed).trans later, fun removes c member inNames => ?_⟩
          rcases List.mem_cons.mp inNames with isName | inRest
          · obtain ⟨c₀, inOld, settled⟩ := later.contained c member
            simp only [Deed.effect, removes.2 name.1 name.2 t met, if_true] at inOld
            have kept := (List.mem_filter.mp inOld).2
            rw [← settled.key, ← settled.role] at kept
            have both : c.key = name.1 ∧ c.role = name.2 := ⟨congrArg Prod.fst isName, congrArg Prod.snd isName⟩
            simp [both.1, both.2] at kept
          · exact swept removes c member inRest

/-- A sweep takes only containers away; one that went through leaves those of `held`. -/
theorem sweep_spec (held : List Key) (s : Host) :
    (sweep held).Spec (contract meets cfg) s
      (Ends fun why t => Beside s t ∧
        (why = none → Removes meets → ∀ c ∈ t.containers, c.key ∈ held)) := by
  refine spec_look fun t beside sound => ?_
  split
  · exact ⟨beside, fun is => by cases is⟩
  · rename_i names listed
    have all : ∀ c ∈ t.containers, c.name ∈ names := by
      intro c member
      split at listed
      · cases listed
        exact List.mem_map.mpr ⟨c, member, rfl⟩
      · cases listed
    refine spec_then (removeNames_spec _ t) fun _ u swept => ?_
    refine spec_look fun v later _ => ?_
    have goes : Beside s v := (beside.trans swept.1).trans later
    have owned : Removes meets → ∀ c ∈ v.containers, c.key ∈ held := by
      intro removes c member
      obtain ⟨c₁, inMid, settled⟩ := later.contained c member
      obtain ⟨c₀, inOld, settled'⟩ := swept.1.contained c₁ inMid
      have kept := swept.2 removes c₁ inMid
      have was := all c₀ inOld
      have same : c₁.name = c₀.name := Prod.ext settled'.key settled'.role
      rw [same] at kept
      rw [settled.key, settled'.key]
      by_contra notHeld
      exact kept (List.mem_filter.mpr ⟨was, by simpa [Container.name] using notHeld⟩)
    split
    · exact ⟨goes, fun _ => owned⟩
    · exact ⟨goes, fun is => by cases is⟩

/-- A free slot is one that no lease of the table and no probe has. -/
theorem freeSlot_spec (s : Host) :
    (freeSlot cfg).Spec (contract meets cfg) s
      (Ends fun slot t => Beside s t ∧ ∀ n, slot = some n → n ∉ t.slotsUsed) := by
  refine spec_look fun t beside _ => ?_
  refine spec_then (sweep_spec _ t) fun _ u swept => ?_
  refine spec_read fun v later _ => ?_
  refine ⟨(beside.trans swept.1).trans later, fun n found => ?_⟩
  have free := List.find?_some found
  simpa using free

/-! ## Saves -/

/-- What a save leaves: the table, the names of the files, the engine. -/
structure Along (s t : Host) : Prop where
  leases : t.leases = s.leases
  hand : t.hand = s.hand
  holds : t.holds = s.holds
  takes : t.takes = s.takes
  runs : t.runs = s.runs
  read : ∀ k, (t.fileOf k).map Option.isSome = (s.fileOf k).map Option.isSome
  contained : ∀ c' ∈ t.containers, ∃ c ∈ s.containers, Settles c c'

theorem Beside.along (b : Beside s t) : Along s t :=
  ⟨b.leases, b.hand, b.holds, b.takes, b.runs, fun k => by rw [b.fileOf], b.contained⟩

theorem Along.trans {a b c : Host} (first : Along a b) (second : Along b c) : Along a c where
  leases := second.leases.trans first.leases
  hand := second.hand.trans first.hand
  holds := second.holds.trans first.holds
  takes := second.takes.trans first.takes
  runs := second.runs.trans first.runs
  read := fun k => (second.read k).trans (first.read k)
  contained := by
    intro last member
    obtain ⟨middle, inMiddle, settled⟩ := second.contained last member
    obtain ⟨old, inOld, settled'⟩ := first.contained middle inMiddle
    exact ⟨old, inOld, settled'.trans settled⟩

theorem Along.reads (along : Along s t) {k : Key} (reads : ∃ l, s.fileOf k = some (some l)) :
    ∃ l, t.fileOf k = some (some l) := by
  obtain ⟨l, found⟩ := reads
  have same := along.read k
  rw [found] at same
  obtain ⟨file, has, is⟩ := Option.map_eq_some_iff.mp same
  obtain ⟨l', rfl⟩ := Option.isSome_iff_exists.mp is
  exact ⟨l', has⟩

theorem Session.along (session : Session meets s) (along : Along s t) : Session meets t where
  covers := by
    intro k is
    rw [along.leases, along.hand]
    refine session.covers k ?_
    have same := congrArg Option.isSome (along.read k)
    rw [Option.isSome_map, Option.isSome_map] at same
    rw [← same]
    exact is
  owned := by
    intro removes c' member task
    obtain ⟨c, inOld, settled⟩ := along.contained c' member
    rw [settled.key]
    exact along.reads (session.owned removes c inOld (settled.role ▸ task))

theorem InHand.along {live' : Live} (held : InHand meets s live) (along : Along s t)
    (kept : Kept meets t live') (same : live'.key = live.key) : InHand meets t live' where
  hand := by rw [along.hand, held.hand, same]
  out := by
    rw [along.leases, same]
    exact held.out
  kept := kept
  session := held.session.along along

/-- A lease that may be written over its file. -/
structure MaySave (meets : Deed → Host → Prop) (h : Host) (l : Lease) : Prop where
  fresh : Fresh h l
  isOver : ∃ l₀, h.fileOf l.key = some (some l₀) ∧ l.task = l₀.task ∧ l.gen = l₀.gen ∧ l.units = l₀.units ∧
    l.netSlot = l₀.netSlot ∧ (l.agentCalls = l₀.agentCalls ∨
      l.agentCalls = none ∧ l.key ∉ h.leases.map Live.key ∧ (Removes meets → Starts meets → Quiet h l.key))

theorem Kept.maySave (kept : Kept meets h live) {l : Lease} (same : Same l live.lease) (fresh : Fresh h l) :
    MaySave meets h l := by
  obtain ⟨l₀, found, alike⟩ := kept.filed
  refine ⟨fresh, l₀, ?_, same.task.trans alike.task, same.gen.trans alike.gen, same.units.trans alike.units,
    same.netSlot.trans alike.netSlot, .inl (same.agentCalls.trans alike.agentCalls)⟩
  rw [same.key]
  exact found

theorem MaySave.beside {l : Lease} (may : MaySave meets s l) (b : Beside s t) : MaySave meets t l := by
  obtain ⟨l₀, found, task, gen, units, slot, calls⟩ := may.isOver
  refine ⟨b.calm.fresh may.fresh, l₀, (b.fileOf _).trans found, task, gen, units, slot, ?_⟩
  rcases calls with same | ⟨none_, out, quiet⟩
  · exact .inl same
  · exact .inr ⟨none_, b.leases ▸ out, fun removes starts => (quiet removes starts).beside b⟩

theorem along_save {l : Lease} (reads : ∃ l₀, h.fileOf l.key = some (some l₀)) :
    Along h (Deed.effect (.save l) h) := by
  refine ⟨rfl, rfl, rfl, rfl, rfl, fun k => ?_, fun c member => ⟨c, member, .refl c⟩⟩
  show Option.map _ (Host.fileOf { h with files := h.files.set l.key (some l) } k) = _
  rw [fileOf_set]
  split
  · rename_i here
    subst here
    obtain ⟨l₀, found⟩ := reads
    rw [found]
    rfl
  · rfl

section Saves

variable {β : Type} {post : Except String β → Host → Prop} {rest : Unit → Prog β}

theorem spec_save {l : Lease} (may : MaySave meets s l)
    (after : ∀ t, Along s t → t.fileOf l.key = some (some l) → (rest ()).Spec (contract meets cfg) t post) :
    (does (.save l) >>= rest).Spec (contract meets cfg) s post := by
  refine spec_act fun t beside sound _ => ?_
  obtain ⟨fresh, l₀, found, task, gen, units, slot, calls⟩ := may.beside beside
  refine ⟨sound.save found task fresh ?_ ?_, ⟨l₀, found, task, gen, units, .inl slot, ?_⟩,
    after _ (beside.along.trans (along_save ⟨l₀, found⟩)) ((fileOf_set t l.key l.key _).trans (if_pos rfl))⟩
  · rcases calls with same | ⟨-, out, -⟩
    · exact .inl ⟨task, gen, units, slot, same⟩
    · exact .inr out
  · rcases calls with same | ⟨-, -, quiet⟩
    · rw [same]
      cases l₀.agentCalls with
      | none => exact .inr (.inl rfl)
      | some n => exact .inl rfl
    · exact .inr (.inr fun removes starts => (quiet removes starts).2)
  · rcases calls with same | ended
    · exact .inl same
    · exact .inr (.inr ended)

end Saves

/-- What is saved is kept, as long as nothing else of the lease changes. -/
theorem kept_saved {l : Lease} (along : Along s t) (filed : t.fileOf l.key = some (some l)) (fresh : Fresh s l)
    {live : Live} (lease : live.lease = l) (fin : live.fin = true → Removes meets → Dead s live.key) :
    Kept meets t live where
  filed := by
    unfold Live.key
    rw [lease]
    exact ⟨l, filed, .refl l⟩
  fresh := by
    unfold Fresh
    rw [lease, along.runs, along.takes]
    exact fresh
  fin := by
    intro spawned removes c' member same task
    obtain ⟨c, inOld, settled⟩ := along.contained c' member
    exact settled.ended (fin spawned removes c inOld (settled.key ▸ same) (settled.role ▸ task))

/-! ## The end of a lease -/

/-- An ending is written before anything is killed. -/
theorem beginEnding_saves (e : Ending) (may : MaySave meets s { live.lease with ending := some e })
    (fin : live.fin = true → Removes meets → Dead s live.key) :
    (beginEnding live e).Spec (contract meets cfg) s
      (Ends fun live' t => Along s t ∧ Kept meets t live' ∧ live'.key = live.key) := by
  refine spec_save may fun t along filed => ?_
  refine spec_removeLease fun u beside _ => ?_
  refine ⟨along.trans beside.along, Kept.calm ?_ beside.calm, rfl⟩
  exact kept_saved along filed may.fresh rfl fin

theorem beginEnding_spec (e : Ending) (kept : Kept meets s live) :
    (beginEnding live e).Spec (contract meets cfg) s
      (Ends fun live' t => Along s t ∧ Kept meets t live' ∧ live'.key = live.key) :=
  beginEnding_saves e (kept.maySave ⟨rfl, rfl, rfl, rfl, rfl⟩ kept.fresh) kept.fin

/-- A lease in hand stays there while it is ended. -/
theorem beginEnding_inHand (e : Ending) (held : InHand meets s live) :
    (beginEnding live e).Spec (contract meets cfg) s
      (Ends fun live' t => InHand meets t live' ∧ live'.key = live.key) := by
  refine (beginEnding_spec e held.kept).mono fun result t ended => ?_
  cases result with
  | error e => exact ended
  | ok live' => exact ⟨held.along ended.1 ended.2.1 ended.2.2, ended.2.2⟩

/-- How a step of a lease leaves it. -/
def Stepped (meets : Deed → Host → Prop) (k : Key) : Option Live → Host → Prop
  | some live, t => InHand meets t live ∧ live.key = k
  | none, t => Gone meets t k

theorem ending_stepped (e : Ending) (held : InHand meets s live) :
    (beginEnding live e >>= fun live => pure (some live)).Spec (contract meets cfg) s
      (Ends (Stepped meets live.key)) :=
  spec_then (beginEnding_inHand e held) fun _ _ ended => ended

/-- The task directory, then the file: nothing of the lease is left in the engine. -/
theorem clearing_spec (held : InHand meets s live) (bare : Removes meets → Bare s live.key)
    (counted : live.lease.agentCalls = none ∨ ∀ u, s.usage.get live.key = some u → u.counted = true) :
    (do does (.clearDir live.key); does (.unlink live.key) : Prog Unit).Spec (contract meets cfg) s
      (Ends fun _ t => Gone meets t live.key) := by
  refine spec_act fun t beside sound _ => ?_
  obtain ⟨l, found, same⟩ := (held.calm beside.calm).kept.filed
  refine ⟨sound.lessens (lessens_clearDir _ t), ⟨l, found, ?_⟩, ?_⟩
  · rcases counted with none_ | counted
    · exact .inl (same.agentCalls ▸ none_)
    · refine .inr fun u has => ?_
      obtain ⟨u₀, was, alike⟩ := beside.usage _ u has
      rw [alike]
      exact counted u₀ was
  have cleared : (Deed.effect (.clearDir live.key) t).usage.get live.key = none := by
    show (t.usage.delete live.key).get live.key = none
    rw [OrderedMap.get_delete, if_pos rfl]
  have held' : InHand meets (Deed.effect (.clearDir live.key) t) live :=
    (held.calm beside.calm).calm ((lessens_clearDir _ t).calm rfl rfl)
  have bare' : Removes meets → Bare (Deed.effect (.clearDir live.key) t) live.key := fun removes =>
    ((bare removes).calm beside.calm).calm ((lessens_clearDir _ t).calm rfl rfl)
  refine spec_last fun u later sound' _ => ?_
  have heldU := held'.calm later.calm
  have bareU : Removes meets → Bare u live.key := fun removes => (bare' removes).beside later
  have unused := later.usage_none cleared
  refine ⟨sound'.delete heldU.out fun _ _ => unused, ⟨bareU, unused, heldU.out⟩, ?_⟩
  refine ⟨heldU.hand, heldU.out, (fileOf_delete u _ _).trans (if_pos rfl), ?_, ?_⟩
  · intro k is
    have file : Host.fileOf { u with files := u.files.delete live.key } k =
        if live.key = k then none else u.fileOf k := fileOf_delete u _ k
    rw [show (Deed.effect (.unlink live.key) u) = { u with files := u.files.delete live.key } from rfl, file] at is
    split at is
    · cases is
    · exact heldU.session.covers k is
  · intro removes c member task
    obtain ⟨l', has⟩ := heldU.session.owned removes c member task
    refine ⟨l', ?_⟩
    show Host.fileOf { u with files := u.files.delete live.key } c.key = _
    rw [fileOf_delete, if_neg (fun same => bareU removes c member same.symm)]
    exact has

theorem counted_count (k : Key) (cap : Nat) (h : Host) :
    ∀ u, (Deed.effect (.count k cap) h).usage.get k = some u → u.counted = true := by
  intro u has
  simp only [Deed.effect] at has
  split at has
  · rw [OrderedMap.get_set, if_pos rfl] at has
    cases has
    rfl
  · rename_i none_
    rw [none_] at has
    cases has

theorem cleanup_spec (held : InHand meets s live) :
    (cleanup live.lease).Spec (contract meets cfg) s (Ends fun _ t => Gone meets t live.key) := by
  refine spec_removeLease fun t beside bare => ?_
  have heldT := held.calm beside.calm
  cases calls : live.lease.agentCalls with
  | none => exact clearing_spec heldT bare (.inl calls)
  | some cap =>
      refine spec_act fun u later sound _ => ?_
      have heldU := heldT.calm later.calm
      obtain ⟨l, found, same⟩ := heldU.kept.filed
      have less := lessens_count live.key cap u
      refine ⟨sound.lessens less, ⟨⟨l, found, same.agentCalls ▸ calls⟩, fun removes => (bare removes).beside later⟩, ?_⟩
      exact clearing_spec (heldU.calm (less.calm rfl rfl))
        (fun removes => ((bare removes).beside later).calm (less.calm rfl rfl)) (.inr (counted_count _ cap u))

theorem absent_of_taskStatus {k : Key} (none_ : h.taskStatus k = none) : Absent h k := by
  intro c member same task
  have missing := Option.map_eq_none_iff.mp none_
  have differs := List.find?_eq_none.mp missing c member
  simp [same, task] at differs

/-- Its end is told only once its container is gone. -/
theorem endLease_spec (held : InHand meets s live) (absent : Absent s live.key) :
    (endLease live).Spec (contract meets cfg) s (Ends fun _ t => Gone meets t live.key) := by
  have told : ∀ e, (does (.report (.ended live.key e)) >>= fun _ => cleanup live.lease).Spec (contract meets cfg) s
      (Ends fun _ t => Gone meets t live.key) := fun e =>
    spec_report (fun t beside _ => (absent.beside beside).dead) fun t beside =>
      cleanup_spec (held.calm beside.calm)
  unfold endLease
  split
  · exact told _
  · exact told _
  · exact told _
  · exact cleanup_spec held
  · exact cleanup_spec held

theorem stepEnding_spec (held : InHand meets s live) :
    (stepEnding live).Spec (contract meets cfg) s (Ends (Stepped meets live.key)) := by
  refine spec_look fun t beside _ => ?_
  have heldT := held.calm beside.calm
  split
  · exact ⟨heldT, rfl⟩
  refine spec_look fun u later _ => ?_
  have heldU := heldT.calm later.calm
  split
  · rename_i answered
    have absent : Absent u live.key := by
      refine absent_of_taskStatus ?_
      split at answered
      · exact Except.ok.inj answered
      · cases answered
    refine spec_look fun v last _ => ?_
    split
    · refine spec_then (endLease_spec (heldU.calm last.calm) (absent.beside last)) fun _ _ gone => gone
    · exact ⟨heldU.calm last.calm, rfl⟩
  · refine spec_removeLease fun v last _ => ?_
    refine spec_removeName fun w last' _ => ?_
    exact ⟨(heldU.calm last.calm).calm last'.calm, rfl⟩

theorem afterFin_spec (now : Nat) (held : InHand meets s live) :
    (afterFin live now).Spec (contract meets cfg) s (Ends (Stepped meets live.key)) := by
  unfold afterFin
  split
  · rename_i spawned
    refine spec_look fun t beside _ => ?_
    have heldT := held.calm beside.calm
    have again : ∀ live', live'.lease = live.lease → live'.fin = false →
        InHand meets t live' ∧ live'.key = live.key := by
      intro live' lease fin
      have same : live'.key = live.key := congrArg Lease.key lease
      refine ⟨⟨same ▸ heldT.hand, same ▸ heldT.out, ⟨?_, ?_, fun is => ?_⟩, heldT.session⟩, same⟩
      · rw [same, lease]
        exact heldT.kept.filed
      · rw [lease]
        exact heldT.kept.fresh
      · rw [fin] at is
        cases is
    split
    · exact ⟨heldT, rfl⟩
    · exact again _ rfl rfl
    · exact again _ rfl rfl
    · refine spec_report (fun u later removes => (heldT.kept.fin spawned removes).beside later) fun u later => ?_
      exact spec_then (cleanup_spec (heldT.calm later.calm)) fun _ _ gone => gone
  · exact ⟨held, rfl⟩

end OmarchyPool.Dispatch
