/-
# OmarchyPool.Factory.OwnerCap -- a contributor's share of the fleet

`select` refuses a community build whose owner already holds `ownerCap` of them, by the leases
the claim read; the UPDATE looks at the host's units, not at the owner's count.  Where the
owner is still below the cap when the UPDATE runs, no owner is ever above it
(`ownersLeased_le_cap`); where no owner gained a lease since the claim read, it is
(`belowCap_of_read`).  Two hosts that read the same count both take one more
(`over_cap_of_ownerAtOnce`).
-/
import OmarchyPool.Factory.Writes
import OmarchyPool.Lib.Keyed

namespace OmarchyPool.Factory

open Lib

set_option autoImplicit false

/-- A leased community build of an owner: what `ownersLeased` counts. -/
def Task.buildsFor (owner : String) (t : Task) : Bool :=
  t.status == .leased && (t.kind == .build && t.trust == .community && t.owner == some owner)

def Queue.ownersLeased (q : Queue) (owner : String) : Nat := q.tasks.countP (·.buildsFor owner)

/-- What `select` compares with the cap, where nothing was leased since the claim read. -/
theorem ownersLeased_read (q : Queue) (k : Claim) (owner : String) :
    ownersLeased (q.leased.map k.heldOf) owner = q.ownersLeased owner := by
  simp only [ownersLeased, Queue.leased, Queue.ownersLeased, List.countP_map, List.countP_filter]
  refine List.countP_congr fun t _ => ?_
  simp only [Function.comp_apply, Claim.heldOf, Task.buildsFor, Bool.and_eq_true]
  tauto

/-- The owner of a community build a lease takes is below the fleet's cap when it takes it. -/
def BelowCap (fleet : Fleet) (now : Int) (r : Rules) : Event → Ledger → Prop
  | .write (.lease l), s => ∀ t ∈ s.queue.tasks, (Write.lease l).guard s.queue t = true →
      t.kind = .build → t.trust = .community → (t.owner.filter (· ≠ "")).all fun owner =>
        (ownerCap fleet now r).all (s.queue.ownersLeased owner < ·)
  | _, _ => True

instance (fleet : Fleet) (now : Int) (r : Rules) (label : Event) (s : Ledger) :
    Decidable (BelowCap fleet now r label s) := by
  apply Event.casesOn (motive := fun label => Decidable (BelowCap fleet now r label s)) label <;> intros
  case write w =>
    apply Write.casesOn (motive := fun w => Decidable (BelowCap fleet now r (.write w) s)) w <;> intros <;>
      (dsimp only [BelowCap]; infer_instance)
  all_goals (dsimp only [BelowCap]; infer_instance)

theorem Task.SameLease.buildsFor {owner : String} {t t' : Task} (same : t.SameLease t') :
    t'.buildsFor owner = t.buildsFor owner := by
  rw [same.1]
  rfl

theorem countP_eq_sum {α : Type} (p : α → Bool) (l : List α) :
    l.countP p = (l.map fun a => if p a then 1 else 0).sum := by
  induction l with
  | nil => rfl
  | cons a rest ih => rw [List.countP_cons, List.map_cons, List.sum_cons, ih, Nat.add_comm]

/-- No write but a lease of one of the owner's builds adds to the count; and that adds one. -/
theorem ownersLeased_exec {q : Queue} (numbered : Numbered q) (w : Write) (owner : String) :
    (q.exec w).ownersLeased owner ≤ q.ownersLeased owner ∨
      (∃ l, w = .lease l ∧ ∃ t ∈ q.tasks, w.guard q t = true ∧ t.kind = .build ∧ t.trust = .community ∧
        t.owner = some owner) ∧ (q.exec w).ownersLeased owner ≤ q.ownersLeased owner + 1 := by
  have new : (q.exec w).ownersLeased owner = (q.tasks.map (q.after w)).countP (·.buildsFor owner) := by
    simp only [Queue.ownersLeased, Queue.exec, List.countP_append]
    cases w <;> rfl
  rw [new, List.countP_map]
  by_cases taken : ∃ l, w = .lease l ∧ ∃ t ∈ q.tasks, w.guard q t = true ∧ t.kind = .build ∧
      t.trust = .community ∧ t.owner = some owner
  · refine .inr ⟨taken, ?_⟩
    obtain ⟨l, rfl, -⟩ := taken
    rw [Queue.ownersLeased, countP_eq_sum, countP_eq_sum]
    refine sum_le_of_one_row numbered.nodup (k := l.choice.id) fun t _ => ?_
    simp only [Function.comp_apply]
    split
    · rename_i counted
      simp only [Task.buildsFor, Bool.and_eq_true, beq_iff_eq] at counted
      rcases leased_after counted.1 with ⟨l', same, matched⟩ | ⟨-, same⟩
      · cases same
        rw [if_pos (Write.guard_lease matched).1]
        omega
      · have before : t.buildsFor owner = true := by
          rw [← same.buildsFor]
          simp [Task.buildsFor, counted]
        rw [if_pos before]
        omega
    · omega
  · refine .inl (List.countP_mono_left fun t member counted => ?_)
    have fields := counted
    simp only [Function.comp_apply, Task.buildsFor, Bool.and_eq_true, beq_iff_eq] at fields
    rcases leased_after fields.1 with ⟨l, rfl, matched⟩ | ⟨-, same⟩
    · have row := q.after_sameRow (.lease l) t
      exact absurd ⟨l, rfl, t, member, matched, row.kind ▸ fields.2.1.1, row.trust ▸ fields.2.1.2,
        row.owner ▸ fields.2.2⟩ taken
    · rwa [Function.comp_apply, same.buildsFor] at counted

/-- For a fixed fleet alive and a divisor: in every interleaving whose leases of community builds
find their owner below the cap, no owner holds more than the cap. -/
theorem ownersLeased_le_cap (b : Brain) (mayLease : WorkerId → Bool) (fleet : Fleet) (now : Int) (r : Rules)
    (divided : 0 < r.ownerDivisor) {config : Config Ledger Request Event Refusal Unit}
    (reached : Reachable (Request.serve b) (BelowCap fleet now r) (.empty mayLease) config) (owner : String)
    (named : owner ≠ "") :
    config.store.queue.ownersLeased owner ≤
      max 1 ⌈(totalBuilds fleet.members now r : ℚ) / r.ownerDivisor⌉.toNat := by
  have isCap : ownerCap fleet now r =
      some (max 1 ⌈(totalBuilds fleet.members now r : ℚ) / r.ownerDivisor⌉.toNat) := if_neg divided.ne'
  generalize max 1 ⌈(totalBuilds fleet.members now r : ℚ) / r.ownerDivisor⌉.toNat = cap at isCap ⊢
  refine (reachable_writes (fun s => Numbered s.queue ∧ s.queue.ownersLeased owner ≤ cap) ?_ ?_ reached).2
  · rintro w s ⟨numbered, held⟩ below
    refine ⟨numbered.exec w, ?_⟩
    rcases ownersLeased_exec numbered w owner with fewer | ⟨⟨l, rfl, t, member, matched, build, community, owned⟩, one⟩
    · exact fewer.trans held
    · have room := below t member matched build community
      rw [owned, isCap] at room
      have free : s.queue.ownersLeased owner < cap := by simpa [Option.filter, named] using room
      exact one.trans free
  · exact ⟨⟨by simp [Ledger.empty], by simp [Ledger.empty]⟩, by simp [Ledger.empty, Queue.ownersLeased]⟩

/-- The lease of what `select` chose finds the owner below the cap, as long as its rows are those the claim
read and no owner has more leased builds than at the read. -/
theorem belowCap_of_read (k : Claim) {leasesAt rowsAt : Queue} {s : Ledger} {choice : Choice} (try_ : Nat)
    (chosen : choice ∈ select k.me (k.fleet (leasesAt.leased.map k.heldOf))
      ((k.rows rowsAt).map (k.candidateOf rowsAt)) k.now k.rules)
    (stands : ∀ t ∈ s.queue.tasks, ∀ t₀ ∈ rowsAt.tasks, t₀.id = t.id → t₀.SameRow t)
    (noMore : ∀ owner, s.queue.ownersLeased owner ≤ leasesAt.ownersLeased owner) :
    BelowCap (k.fleet (leasesAt.leased.map k.heldOf)) k.now k.rules
      (.write (.lease (k.leaseWrite ((k.rows rowsAt).map (k.candidateOf rowsAt)) try_ choice))) s := by
  obtain ⟨-, c, inPool, e, is, same⟩ := mem_select chosen
  obtain ⟨isChoice, _, passes⟩ := Passes.of_consider is
  obtain ⟨t₀, inRows, rfl⟩ := List.mem_map.mp (poolOf_subset inPool)
  have inTable : t₀ ∈ rowsAt.tasks := by
    rcases List.mem_append.mp inRows with windowed | own
    · have inScope : t₀ ∈ rowsAt.tasks.filter fun t => t.status == .queued && k.inScope rowsAt t := by
        simpa using (List.mem_filter.mp windowed).2
      exact (List.mem_filter.mp inScope).1
    · exact (List.mem_filter.mp own).1
  intro t member matched build community
  have isRow : t₀.id = t.id := by
    have chose : t.id = choice.id := (Write.guard_lease matched).1
    rw [chose, same]
    exact isChoice.symm
  have row := stands t member t₀ inTable isRow
  have isOwner : cappedOwner (k.candidateOf rowsAt t₀) = t.owner.filter (· ≠ "") := by
    have same : t₀.kind = .build ∧ t₀.trust = .community := ⟨row.kind.symm.trans build, row.trust.symm.trans community⟩
    rw [cappedOwner, row.owner]
    exact if_pos same
  have owner := passes.owner
  rw [isOwner] at owner
  cases isNamed : t.owner.filter (· ≠ "") with
  | none => rfl
  | some name =>
      rw [isNamed, Option.map_some, Option.any_some] at owner
      cases isCap : ownerCap (k.fleet (leasesAt.leased.map k.heldOf)) k.now k.rules with
      | none => rfl
      | some cap =>
          rw [isCap, Option.any_some, decide_eq_false_iff_not, Nat.not_le] at owner
          have read : ownersLeased (k.fleet (leasesAt.leased.map k.heldOf)).leases name = leasesAt.ownersLeased name :=
            ownersLeased_read leasesAt k name
          rw [read] at owner
          exact decide_eq_true ((noMore name).trans_lt owner)

/-- A contributor's build. -/
def communityBuild (name owner : String) : Task :=
  { id := 0, name, arch := .x86_64, kind := .build, trust := .community, owner := some owner }

/-- Two hosts of two builds each: with the divisor 4, one build at a time an owner. -/
def twoHosts : Fleet := ⟨[nativeHost "a" 5, nativeHost "b" 5], [], []⟩

/-- Two builds of one owner, and the two hosts' claims. -/
def ownerQueued : List (Move Request) :=
  [.spawn (.enqueue (communityBuild "p" "ana")), .run 0, .spawn (.enqueue (communityBuild "q" "ana")), .run 1,
   .spawn (.claim (claimOf "a" "b" "ga")), .spawn (.claim (claimOf "b" "a" "gb"))]

/-- One claim after the other: the second finds the owner at the cap. -/
def ownerInTurn : List (Move Request) :=
  ownerQueued ++ [.run 2, .run 2, .run 2, .run 2, .run 3, .run 3, .run 3, .run 3]

theorem ownersLeased_le_cap_of_ownerInTurn :
    ∃ config, Reachable (Request.serve {}) (BelowCap twoHosts 0 signedRules) (.empty fun _ => true) config ∧
      config.store.queue.ownersLeased "ana" ≤
        max 1 ⌈(totalBuilds twoHosts.members 0 signedRules : ℚ) / signedRules.ownerDivisor⌉.toNat ∧
      config.store.queue.ownersLeased "ana" = 1 :=
  have reached := reachable_moves (Request.serve {}) (BelowCap twoHosts 0 signedRules) (.empty fun _ => true)
    ownerInTurn (by decide +kernel)
  ⟨_, reached, ownersLeased_le_cap {} _ twoHosts 0 signedRules (by decide) reached "ana" (by decide),
    by decide +kernel⟩

/-- Both read before either leases: both find the owner with none. -/
def ownerAtOnce : List (Move Request) :=
  ownerQueued ++ [.run 2, .run 2, .run 2, .run 3, .run 3, .run 3, .run 2, .run 3, .run 3]

theorem over_cap_of_ownerAtOnce :
    ∃ config, Reachable (Request.serve {}) Unrestricted (.empty fun _ => true) config ∧
      ¬ config.store.queue.ownersLeased "ana" ≤
        max 1 ⌈(totalBuilds twoHosts.members 0 signedRules : ℚ) / signedRules.ownerDivisor⌉.toNat :=
  ⟨_, reachable_moves _ _ _ ownerAtOnce (by decide +kernel), by decide +kernel⟩

end OmarchyPool.Factory
