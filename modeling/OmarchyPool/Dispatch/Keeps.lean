/-
# OmarchyPool.Dispatch.Keeps -- what each deed keeps

`Sound`, deed by deed.  Most deeds only take away (`Lessens`): they leave the files and the
counts as they are, and no lease, container or usage is there after that was not before.  The
others have a lemma each: a lease put back, taken, saved, its file gone, an engine call done.
-/
import OmarchyPool.Dispatch.Protocol

namespace OmarchyPool.Dispatch

open OmarchyPool.Lib

set_option autoImplicit false

variable {meets : Deed → Host → Prop} {s t h : Host}

/-! ## Deeds that only take away -/

structure Lessens (s t : Host) : Prop where
  leases : t.leases.Sublist s.leases
  files : t.files = s.files
  takes : t.takes = s.takes
  runs : t.runs = s.runs
  contained : ∀ c' ∈ t.containers, ∃ c ∈ s.containers, Settles c c'
  named : (t.containers.map Container.name).Sublist (s.containers.map Container.name)
  usage : ∀ k u', t.usage.get k = some u' → ∃ u, s.usage.get k = some u

theorem Lessens.refl (s : Host) : Lessens s s :=
  ⟨List.Sublist.refl _, rfl, rfl, rfl, fun c member => ⟨c, member, .refl c⟩, List.Sublist.refl _,
    fun _ u found => ⟨u, found⟩⟩

theorem Beside.lessens (b : Beside s t) : Lessens s t where
  leases := b.leases ▸ List.Sublist.refl _
  files := b.files
  takes := b.takes
  runs := b.runs
  contained := b.contained
  named := b.named
  usage := fun k u' found => (b.usage k u' found).imp fun _ was => was.1

theorem Lessens.fileOf (less : Lessens s t) (k : Key) : t.fileOf k = s.fileOf k := by
  unfold Host.fileOf
  rw [less.files]

theorem Lessens.fresh (less : Lessens s t) {l : Lease} (fresh : Fresh s l) : Fresh t l := by
  unfold Fresh
  rw [less.runs, less.takes]
  exact fresh

theorem Lessens.dead (less : Lessens s t) {k : Key} (dead : Dead s k) : Dead t k := by
  intro c' member same task
  obtain ⟨c, inOld, settled⟩ := less.contained c' member
  exact settled.ended (dead c inOld (settled.key ▸ same) (settled.role ▸ task))

theorem Kept.lessens {live : Live} (kept : Kept meets s live) (less : Lessens s t) : Kept meets t live where
  filed := by
    rw [less.fileOf]
    exact kept.filed
  fresh := less.fresh kept.fresh
  fin := fun spawned removes => less.dead (kept.fin spawned removes)

theorem Sound.lessens (sound : Sound meets s) (less : Lessens s t) : Sound meets t where
  valid := less.files ▸ sound.valid
  named := sound.named.sublist less.named
  table := sound.table.sublist (less.leases.map _)
  kept := fun live member => (sound.kept live (less.leases.subset member)).lessens less
  files := by
    intro k l found
    rw [less.fileOf] at found
    exact ⟨(sound.files k l found).1, less.fresh (sound.files k l found).2⟩
  ran := by
    rw [less.runs, less.takes]
    exact sound.ran
  tasks := by
    intro removes c' member task l found
    obtain ⟨c, inOld, settled⟩ := less.contained c' member
    rw [less.fileOf, settled.key] at found
    exact sound.tasks removes c inOld (settled.role ▸ task) l found
  usage := by
    intro removes starts k u' found
    obtain ⟨u, was⟩ := less.usage k u' found
    rw [less.fileOf]
    exact sound.usage removes starts k u was

theorem Sound.beside (sound : Sound meets s) (b : Beside s t) : Sound meets t := sound.lessens b.lessens

theorem lessens_die (h : Host) : Lessens h h.die := { Lessens.refl h with leases := List.nil_sublist _ }

theorem lessens_takeOut (k : Key) (h : Host) : Lessens h (Deed.effect (.takeOut k) h) :=
  { Lessens.refl h with leases := List.filter_sublist }

theorem lessens_letGo (k : Key) (h : Host) : Lessens h (Deed.effect (.letGo k) h) := { Lessens.refl h with }

theorem lessens_hold (slot : Nat) (gen : String) (h : Host) : Lessens h (Deed.effect (.hold slot gen) h) :=
  { Lessens.refl h with }

theorem lessens_unhold (h : Host) : Lessens h (Deed.effect .unhold h) := { Lessens.refl h with }

theorem lessens_remember (memo : Memo) (h : Host) : Lessens h (Deed.effect (.remember memo) h) :=
  { Lessens.refl h with }

theorem lessens_report (r : Report) (h : Host) : Lessens h (Deed.effect (.report r) h) :=
  { Lessens.refl h with }

theorem lessens_add (now calls : Nat) (h : Host) : Lessens h (Deed.effect (.add now calls) h) :=
  { Lessens.refl h with }

/-- Fewer containers, each as it was. -/
theorem lessens_filter (p : Container → Bool) (h : Host) :
    Lessens h { h with containers := h.containers.filter p } :=
  { Lessens.refl h with
    contained := fun c member => ⟨c, (List.mem_filter.mp member).1, .refl c⟩
    named := List.filter_sublist.map _ }

theorem lessens_removeLease (k : Key) (h : Host) : Lessens h (Deed.effect (.removeLease k) h) := by
  show Lessens h (if h.outside.removes then _ else h)
  split
  · exact lessens_filter _ h
  · exact .refl h

theorem lessens_removeName (k : Key) (role : Role) (h : Host) :
    Lessens h (Deed.effect (.removeName k role) h) := by
  show Lessens h (if h.outside.removes then _ else h)
  split
  · exact lessens_filter _ h
  · exact .refl h

theorem lessens_count (k : Key) (cap : Nat) (h : Host) : Lessens h (Deed.effect (.count k cap) h) := by
  refine { Lessens.refl h with usage := fun j u' found => ?_ }
  simp only [Deed.effect] at found
  split at found
  · rename_i u was
    rw [OrderedMap.get_set] at found
    split at found
    · rename_i here
      exact ⟨u, here ▸ was⟩
    · exact ⟨u', found⟩
  · exact ⟨u', found⟩

theorem lessens_clearDir (k : Key) (h : Host) : Lessens h (Deed.effect (.clearDir k) h) := by
  refine { Lessens.refl h with usage := fun j u' found => ?_ }
  simp only [Deed.effect] at found
  rw [OrderedMap.get_delete] at found
  split at found
  · cases found
  · exact ⟨u', found⟩

/-! ## A lease put back -/

theorem mem_putBack {live other : Live} {h : Host} (member : other ∈ (Deed.effect (.putBack live) h).leases) :
    other = live ∨ other ∈ h.leases ∧ other.key ≠ live.key := by
  simp only [Deed.effect, List.mem_orderedInsert, List.mem_filter, decide_not, Bool.not_eq_eq_eq_not,
    Bool.not_true, decide_eq_false_iff_not] at member
  exact member

theorem keys_putBack (live : Live) (h : Host) (k : Key) :
    k ∈ (Deed.effect (.putBack live) h).leases.map Live.key ↔ k = live.key ∨ k ∈ h.leases.map Live.key := by
  constructor
  · intro member
    obtain ⟨other, inTable, rfl⟩ := List.mem_map.mp member
    rcases mem_putBack inTable with rfl | old
    · exact .inl rfl
    · exact .inr (List.mem_map.mpr ⟨other, old.1, rfl⟩)
  · intro known
    rw [List.mem_map]
    by_cases same : k = live.key
    · exact ⟨live, by simp [Deed.effect], same.symm⟩
    · obtain ⟨other, inTable, rfl⟩ := List.mem_map.mp (known.resolve_left same)
      exact ⟨other, by simp [Deed.effect, inTable, same], rfl⟩

theorem Sound.putBack (sound : Sound meets h) {live : Live} (kept : Kept meets h live) :
    Sound meets (Deed.effect (.putBack live) h) where
  valid := sound.valid
  named := sound.named
  table := by
    refine ((List.perm_orderedInsert Live.Before live _).map Live.key).nodup_iff.mpr ?_
    rw [List.map_cons, List.nodup_cons]
    refine ⟨fun member => ?_, sound.table.sublist (List.filter_sublist.map _)⟩
    obtain ⟨other, inRest, same⟩ := List.mem_map.mp member
    have differs := (List.mem_filter.mp inRest).2
    rw [same] at differs
    simp at differs
  kept := by
    intro other member
    rcases mem_putBack member with rfl | ⟨old, -⟩
    · exact ⟨kept.filed, kept.fresh, kept.fin⟩
    · exact ⟨(sound.kept other old).filed, (sound.kept other old).fresh, (sound.kept other old).fin⟩
  files := sound.files
  ran := sound.ran
  tasks := sound.tasks
  usage := sound.usage

/-! ## The lease files -/

theorem fileOf_set (h : Host) (k j : Key) (file : Option Lease) :
    ({ h with files := h.files.set k file } : Host).fileOf j = if k = j then some file else h.fileOf j :=
  OrderedMap.get_set k j file h.files

theorem fileOf_delete (h : Host) (k j : Key) :
    ({ h with files := h.files.delete k } : Host).fileOf j = if k = j then none else h.fileOf j :=
  OrderedMap.get_delete k j h.files

theorem Sound.take (sound : Sound meets h) (session : Session meets h) {l : Lease}
    (free : h.fileOf l.key = none) (bare : l.netSlot = none ∧ l.agentCalls = none) :
    Sound meets (Deed.effect (.take l) h) := by
  have file : ∀ j, (Deed.effect (.take l) h).fileOf j = if l.key = j then some (some l) else h.fileOf j :=
    fun j => fileOf_set h l.key j (some l)
  have fresh : ∀ l', Fresh h l' → Fresh (Deed.effect (.take l) h) l' := by
    intro l' was preparing
    refine ⟨Nat.lt_of_lt_of_le (was preparing).1 ?_, (was preparing).2⟩
    exact (List.sublist_cons_self _ _).count_le _
  have freshNew : Fresh (Deed.effect (.take l) h) l := by
    intro _
    refine ⟨?_, bare⟩
    simp only [Deed.effect, List.count_cons_self]
    exact Nat.lt_succ_of_le (sound.ran l.key)
  refine ⟨sound.valid.set _ _, sound.named, sound.table, ?_, ?_, ?_, ?_, ?_⟩
  · intro live member
    obtain ⟨l', found, same⟩ := (sound.kept live member).filed
    have other : l.key ≠ live.key := by
      intro same'
      rw [← same', free] at found
      cases found
    refine ⟨⟨l', ?_, same⟩, fresh _ (sound.kept live member).fresh, (sound.kept live member).fin⟩
    rw [file, if_neg other]
    exact found
  · intro k l' found
    rw [file] at found
    split at found
    · rename_i here
      cases found
      exact ⟨here, freshNew⟩
    · exact ⟨(sound.files k l' found).1, fresh l' (sound.files k l' found).2⟩
  · exact fun k => (sound.ran k).trans ((List.sublist_cons_self _ _).count_le _)
  · intro removes c member task l' found
    rw [file] at found
    split at found
    · -- No container of a lease that has no file yet.
      rename_i here
      obtain ⟨l'', has⟩ := session.owned removes c member task
      rw [← here, free] at has
      cases has
    · exact sound.tasks removes c member task l' found
  · intro removes starts k u found
    obtain ⟨l', has, granted⟩ := sound.usage removes starts k u found
    refine ⟨l', ?_, granted⟩
    rw [file, if_neg]
    · exact has
    · intro here
      rw [← here, free] at has
      cases has

theorem Sound.save (sound : Sound meets h) {l l₀ : Lease} (found : h.fileOf l.key = some (some l₀))
    (task : l.task = l₀.task) (fresh : Fresh h l)
    (same : Same l l₀ ∨ l.key ∉ h.leases.map Live.key)
    (granted : l.agentCalls.isSome = true ∨ l₀.agentCalls = none ∨
      (Removes meets → Starts meets → h.usage.get l.key = none)) :
    Sound meets (Deed.effect (.save l) h) := by
  have file : ∀ j, (Deed.effect (.save l) h).fileOf j = if l.key = j then some (some l) else h.fileOf j :=
    fun j => fileOf_set h l.key j (some l)
  refine ⟨sound.valid.set _ _, sound.named, sound.table, ?_, ?_, sound.ran, ?_, ?_⟩
  · intro live member
    obtain ⟨l', was, alike⟩ := (sound.kept live member).filed
    refine ⟨?_, (sound.kept live member).fresh, (sound.kept live member).fin⟩
    rw [file]
    by_cases here : l.key = live.key
    · rw [if_pos here]
      refine ⟨l, rfl, ?_⟩
      rcases same with same | out
      · rw [← here, found] at was
        cases was
        exact ⟨alike.task.trans same.task.symm, alike.gen.trans same.gen.symm,
          alike.units.trans same.units.symm, alike.netSlot.trans same.netSlot.symm,
          alike.agentCalls.trans same.agentCalls.symm⟩
      · exact absurd (List.mem_map.mpr ⟨live, member, here.symm⟩) out
    · rw [if_neg here]
      exact ⟨l', was, alike⟩
  · intro k l' has
    rw [file] at has
    split at has
    · rename_i here
      cases has
      exact ⟨here, fresh⟩
    · exact sound.files k l' has
  · intro removes c member isTask l' has
    rw [file] at has
    split at has
    · rename_i here
      cases has
      rw [Lease.isJob, task]
      exact sound.tasks removes c member isTask l₀ (here ▸ found)
    · exact sound.tasks removes c member isTask l' has
  · intro removes starts k u has
    obtain ⟨l', was, some_⟩ := sound.usage removes starts k u has
    rw [file]
    by_cases here : l.key = k
    · rw [if_pos here]
      refine ⟨l, rfl, ?_⟩
      rcases granted with granted | none_ | empty
      · exact granted
      · rw [← here, found] at was
        cases was
        rw [none_] at some_
        cases some_
      · have none_ := empty removes starts
        rw [here] at none_
        cases none_.symm.trans has
    · rw [if_neg here]
      exact ⟨l', was, some_⟩

/-- A file goes that no lease of the table has, and no sidecar's usage. -/
theorem Sound.delete (sound : Sound meets h) {k : Key} (out : k ∉ h.leases.map Live.key)
    (unused : Removes meets → Starts meets → h.usage.get k = none) :
    Sound meets { h with files := h.files.delete k } := by
  refine ⟨sound.valid.delete _, sound.named, sound.table, ?_, ?_, sound.ran, ?_, ?_⟩
  · intro live member
    obtain ⟨l', was, alike⟩ := (sound.kept live member).filed
    refine ⟨⟨l', ?_, alike⟩, (sound.kept live member).fresh, (sound.kept live member).fin⟩
    rw [fileOf_delete, if_neg]
    · exact was
    · rintro rfl
      exact out (List.mem_map.mpr ⟨live, member, rfl⟩)
  · intro j l' has
    rw [fileOf_delete] at has
    split at has
    · cases has
    · exact sound.files j l' has
  · intro removes c member isTask l' has
    rw [fileOf_delete] at has
    split at has
    · cases has
    · exact sound.tasks removes c member isTask l' has
  · intro removes starts j u has
    rw [fileOf_delete, if_neg]
    · exact sound.usage removes starts j u has
    · rintro rfl
      rw [unused removes starts] at has
      cases has

/-! ## The engine's calls -/

theorem not_mem_of_container? {k : Key} {role : Role} (none_ : h.container? k role = none) :
    (k, role) ∉ h.containers.map Container.name := by
  intro member
  obtain ⟨c, inEngine, same⟩ := List.mem_map.mp member
  have differs := List.find?_eq_none.mp none_ c inEngine
  simp only [Container.name, Prod.mk.injEq] at same
  simp [same] at differs

/-- A new container whose name was free; of a task only where no lease waits on it. -/
theorem Sound.made (sound : Sound meets h) {k : Key} {role : Role} (status : Status) (calls : Nat)
    (free : h.container? k role = none) (other : role ≠ .task) :
    Sound meets { h with containers := h.containers ++ [⟨k, role, status, calls⟩] } := by
  have old : ∀ c ∈ h.containers ++ [⟨k, role, status, calls⟩], c.role = .task → c ∈ h.containers := by
    intro c member task
    rcases List.mem_append.mp member with was | new
    · exact was
    · rw [List.mem_singleton.mp new] at task
      exact absurd task other
  refine ⟨sound.valid, ?_, sound.table, ?_, sound.files, sound.ran, ?_, sound.usage⟩
  · rw [List.map_append, List.map_singleton]
    exact List.nodup_append.mpr ⟨sound.named, List.nodup_singleton _, by
      rintro a inOld b isNew rfl
      rw [List.mem_singleton.mp isNew] at inOld
      exact not_mem_of_container? free inOld⟩
  · intro live member
    refine ⟨(sound.kept live member).filed, (sound.kept live member).fresh, fun spawned removes => ?_⟩
    exact fun c inNew same task => (sound.kept live member).fin spawned removes c (old c inNew task) same task
  · exact fun removes c inNew task => sound.tasks removes c (old c inNew task) task

theorem startOne_name (k : Key) (role : Role) (c : Container) : (Host.startOne k role c).name = c.name := by
  unfold Host.startOne
  split <;> rfl

theorem startOne_ended {k : Key} {role : Role} {c : Container} (isOver : c.status.ended = true) :
    (Host.startOne k role c).status.ended = true := by
  unfold Host.startOne
  split
  · rename_i fits
    rw [fits.2.2] at isOver
    cases isOver
  · exact isOver

theorem Sound.started (sound : Sound meets h) (k : Key) (role : Role) :
    Sound meets { h with containers := h.containers.map (Host.startOne k role) } := by
  have names : ∀ c, (Host.startOne k role c).key = c.key ∧ (Host.startOne k role c).role = c.role :=
    fun c => Prod.mk.injEq .. ▸ startOne_name k role c
  refine ⟨sound.valid, ?_, sound.table, ?_, sound.files, sound.ran, ?_, sound.usage⟩
  · simp only [List.map_map, Function.comp_def, startOne_name]
    exact sound.named
  · intro live member
    refine ⟨(sound.kept live member).filed, (sound.kept live member).fresh, fun spawned removes => ?_⟩
    intro c inNew same task
    obtain ⟨c₀, inOld, rfl⟩ := List.mem_map.mp inNew
    rw [(names c₀).1] at same
    rw [(names c₀).2] at task
    exact startOne_ended ((sound.kept live member).fin spawned removes c₀ inOld same task)
  · intro removes c inNew task l found
    obtain ⟨c₀, inOld, rfl⟩ := List.mem_map.mp inNew
    rw [(names c₀).1] at found
    rw [(names c₀).2] at task
    exact sound.tasks removes c₀ inOld task l found

/-- A sidecar that starts has a lease with calls set aside. -/
theorem Sound.spends (sound : Sound meets h) {k : Key} {l : Lease} (found : h.fileOf k = some (some l))
    (granted : l.agentCalls.isSome = true) (u : Usage) :
    Sound meets { h with usage := h.usage.set k u } := by
  refine ⟨sound.valid, sound.named, sound.table, ?_, sound.files, sound.ran, sound.tasks, ?_⟩
  · intro live member
    exact ⟨(sound.kept live member).filed, (sound.kept live member).fresh, (sound.kept live member).fin⟩
  · intro removes starts j u' has
    simp only [OrderedMap.get_set] at has
    split at has
    · rename_i here
      exact ⟨l, here ▸ found, granted⟩
    · exact sound.usage removes starts j u' has

theorem Sound.runs (sound : Sound meets h) {k : Key} (free : h.container? k .task = none)
    (guard : CallGuard h k .run) : Sound meets (h.called k .run) := by
  obtain ⟨unrun, out, l, found, notJob, started⟩ := guard
  have counts : ∀ j, (h.called k .run).runs.count j = h.runs.count j + if k = j then 1 else 0 := by
    intro j
    show (k :: h.runs).count j = _
    rw [List.count_cons]
    simp only [beq_iff_eq]
  have fresh : ∀ l', l'.key ≠ k → Fresh h l' → Fresh (h.called k .run) l' := by
    intro l' other was preparing
    refine ⟨?_, (was preparing).2⟩
    rw [counts, if_neg (Ne.symm other), Nat.add_zero]
    exact (was preparing).1
  refine ⟨sound.valid, ?_, sound.table, ?_, ?_, ?_, ?_, sound.usage⟩
  · show ((h.containers ++ [_]).map Container.name).Nodup
    rw [List.map_append, List.map_singleton]
    exact List.nodup_append.mpr ⟨sound.named, List.nodup_singleton _, by
      rintro a inOld b isNew rfl
      rw [List.mem_singleton.mp isNew] at inOld
      exact not_mem_of_container? free inOld⟩
  · intro live member
    have other : live.key ≠ k := fun same => out (List.mem_map.mpr ⟨live, member, same⟩)
    refine ⟨(sound.kept live member).filed, fresh _ other (sound.kept live member).fresh, ?_⟩
    intro spawned removes c inNew same task
    rcases List.mem_append.mp inNew with was | new
    · exact (sound.kept live member).fin spawned removes c was same task
    · rw [List.mem_singleton.mp new] at same
      exact absurd same.symm other
  · intro j l' has
    refine ⟨(sound.files j l' has).1, ?_⟩
    by_cases here : l'.key = k
    · -- The lease that runs is past its preparation.
      intro preparing
      have same : h.fileOf k = some (some l') := by
        rw [← here, (sound.files j l' has).1]
        exact has
      rw [found] at same
      cases same
      exact absurd preparing started
    · exact fresh l' here (sound.files j l' has).2
  · intro j
    rw [counts]
    split
    · rename_i here
      subst here
      exact unrun
    · exact sound.ran j
  · intro removes c inNew task l' has
    rcases List.mem_append.mp inNew with was | new
    · exact sound.tasks removes c was task l' has
    · rw [List.mem_singleton.mp new] at has
      have same : some (some l') = some (some l) := has.symm.trans found
      cases same
      exact notJob

theorem Sound.call (sound : Sound meets h) {k : Key} {c : Call} (guard : CallGuard h k c) :
    Sound meets (Deed.effect (.call k c) h) := by
  show Sound meets (if h.takesEffect k c then h.called k c else h)
  split
  · rename_i effective
    have can : h.possible k c = true := (Bool.and_eq_true_iff.mp effective).2
    match c, guard, can with
    | .network, _, _ => exact sound
    | .connect, _, _ => exact sound
    | .create .egress calls, _, can =>
        exact sound.made .created calls (Option.isNone_iff_eq_none.mp can) (by decide)
    | .create .agent calls, _, can =>
        exact sound.made .created calls (Option.isNone_iff_eq_none.mp can) (by decide)
    | .start .egress, _, _ => exact sound.started k .egress
    | .start .agent, guard, _ =>
        obtain ⟨l, calls, found, granted, -⟩ := guard
        have started := sound.started k .agent
        show Sound meets { h with containers := _, usage := if _ then _ else _ }
        split
        · exact started.spends found (by rw [granted]; rfl) _
        · exact started
    | .run, guard, can => exact sound.runs (Option.isNone_iff_eq_none.mp can) guard
  · exact sound

end OmarchyPool.Dispatch
