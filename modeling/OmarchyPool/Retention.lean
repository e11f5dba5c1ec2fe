/-
# OmarchyPool.Retention -- what `retention` protects

Run alone, `retention` changes nothing and gives, for each ring, a seq `low` and a seq
`floor`: the releases from `low` on are protected, `floor` is the newest checkpoint at or
before `low`, and the checkpoints kept are those from `floor` on (`Retains`).  `low` is no
higher than the ring's newest `keep` releases reach, nor than what its head's carried
databases go back to.
-/
import OmarchyPool.Rebuild

namespace OmarchyPool

open Lib

set_option autoImplicit false

/-! ## A ring's releases, newest first -/

namespace Db

section Newest

variable {db : Db} (ordered : db.Ordered)
include ordered

theorem Ordered.getElem_seq {ring : Ring} {i : Nat} {r : Release}
    (at_ : (db.ofRing ring)[i]? = some r) : r.seq = i + 1 := by
  have mapped : ((db.ofRing ring).map (·.seq))[i]? = some r.seq := by
    rw [List.getElem?_map, at_]
    rfl
  rw [ordered.seqs ring] at mapped
  have inside : i < (db.ofRing ring).length := (List.getElem?_eq_some_iff.mp at_).1
  rw [List.getElem?_range' (by simpa using inside)] at mapped
  simp only [Option.some.injEq] at mapped
  omega

theorem Ordered.pairwise_seq (ring : Ring) :
    (db.ofRing ring).Pairwise fun a b => a.seq < b.seq := by
  have sorted : ((db.ofRing ring).map (·.seq)).Pairwise (· < ·) := by
    rw [ordered.seqs ring]
    exact List.pairwise_lt_range'
  exact List.pairwise_map.mp sorted

theorem Ordered.newestFirst_eq (ring : Ring) : db.newestFirst ring = (db.ofRing ring).reverse := by
  have falling : (db.ofRing ring).reverse.Pairwise fun a b => b.seq ≤ a.seq :=
    List.pairwise_reverse.mpr ((ordered.pairwise_seq ring).imp Nat.le_of_lt)
  refine List.Perm.eq_of_pairwise ?_ ?_ falling
    ((List.perm_insertionSort _ _).trans (List.reverse_perm _).symm)
  · intro a b memA memB below above
    have memA : a ∈ db.ofRing ring := (List.perm_insertionSort _ _).mem_iff.mp memA
    have memB : b ∈ db.ofRing ring := List.mem_reverse.mp memB
    exact ordered.seq_injective memA memB (Nat.le_antisymm above below)
  · have : IsTrans Release fun a b => b.seq ≤ a.seq := ⟨fun _ _ _ ab bc => Nat.le_trans bc ab⟩
    have : Std.Total fun a b : Release => b.seq ≤ a.seq := ⟨fun a b => Nat.le_total b.seq a.seq⟩
    exact List.pairwise_insertionSort _ _

theorem Ordered.mem_newestFirst {ring : Ring} {r : Release} :
    r ∈ db.newestFirst ring ↔ r ∈ db.ofRing ring := by
  rw [ordered.newestFirst_eq, List.mem_reverse]

theorem Ordered.newestFirst_falling (ring : Ring) :
    (db.newestFirst ring).Pairwise fun a b => b.seq < a.seq := by
  rw [ordered.newestFirst_eq]
  exact List.pairwise_reverse.mpr (ordered.pairwise_seq ring)

/-- The last `keep` releases of a ring are those whose seq is within `keep` of its highest. -/
theorem Ordered.mem_take_newestFirst {ring : Ring} {keep : Nat} {r : Release} :
    r ∈ (db.newestFirst ring).take keep ↔
      r ∈ db.ofRing ring ∧ (db.ofRing ring).length < r.seq + keep := by
  rw [ordered.newestFirst_eq, List.take_reverse, List.mem_reverse]
  constructor
  · intro member
    obtain ⟨i, at_⟩ := List.mem_iff_getElem?.mp member
    rw [List.getElem?_drop] at at_
    have seq := ordered.getElem_seq at_
    exact ⟨List.mem_of_mem_drop member, by omega⟩
  · rintro ⟨member, near⟩
    obtain ⟨i, at_⟩ := List.mem_iff_getElem?.mp member
    have seq := ordered.getElem_seq at_
    refine List.mem_iff_getElem?.mpr ⟨i - ((db.ofRing ring).length - keep), ?_⟩
    rw [List.getElem?_drop, show (db.ofRing ring).length - keep +
      (i - ((db.ofRing ring).length - keep)) = i by omega]
    exact at_

end Newest

/-- In a list of falling seqs the last is the lowest. -/
theorem last_le {rows : List Release} (falling : rows.Pairwise fun a b => b.seq < a.seq)
    {oldest : Release} (last : rows.getLast? = some oldest) {r : Release} (member : r ∈ rows) :
    oldest.seq ≤ r.seq := by
  obtain ⟨front, rfl⟩ := List.getLast?_eq_some_iff.mp last
  rcases List.mem_append.mp member with before | itself
  · exact Nat.le_of_lt ((List.pairwise_append.mp falling).2.2 r before oldest (by simp))
  · rw [List.mem_singleton.mp itself]

/-- What is found first in a list of falling seqs is the newest that passes. -/
theorem find?_newest {rows : List Release} (falling : rows.Pairwise fun a b => b.seq < a.seq)
    {passes : Release → Bool} {newest : Release} (found : rows.find? passes = some newest)
    {r : Release} (member : r ∈ rows) (ok : passes r = true) : r.seq ≤ newest.seq := by
  obtain ⟨_, front, back, rfl, none⟩ := List.find?_eq_some_iff_append.mp found
  rcases List.mem_append.mp member with before | after
  · exact absurd ok (by simpa using none r before)
  · rcases List.mem_cons.mp after with rfl | later
    · exact Nat.le_refl _
    · exact Nat.le_of_lt ((List.pairwise_cons.mp (List.pairwise_append.mp falling).2.1).1 r later)

end Db

/-! ## The releases of one ring -/

/-- How far back a head's carried databases of an architecture go. -/
def Db.carriedBound (db : Db) (ring : Ring) (head : Release) (arch : Arch) : Nat :=
  (db.renderedBefore ring head.seq arch).getD (max 1 (head.seq - carryReach))

theorem carriedSince_spec (ring : Ring) (head : Release) (arches : List Arch) (since : Option Nat)
    (w : World) :
    (carriedSince ring head arches since).Spec (.alone World Event) w fun result w' => w = w' ∧
      ∃ low, result = .ok low ∧ (low = none → arches = [] ∧ since = none) ∧
        ∀ seq, low = some seq → (∀ old, since = some old → seq ≤ old) ∧
          ∀ arch ∈ arches, seq ≤ w.db.carriedBound ring head arch := by
  induction arches generalizing since with
  | nil =>
      refine ⟨rfl, since, rfl, fun none => ⟨rfl, none⟩, ?_⟩
      rintro seq rfl
      exact ⟨fun _ same => by cases same; exact Nat.le_refl _, by simp⟩
  | cons arch rest ih =>
      refine Program.Spec.bind (Program.alone_query ?_)
      refine (ih _).mono ?_
      rintro result _ ⟨rfl, low, rfl, none, bounds⟩
      refine ⟨rfl, low, rfl, fun empty => by simpa using (none empty).2, ?_⟩
      intro seq isLow
      obtain ⟨first, others⟩ := bounds seq isLow
      have below := first _ rfl
      refine ⟨?_, ?_⟩
      · rintro old rfl
        exact Nat.le_trans below (Nat.min_le_left _ _)
      · intro a member
        rcases List.mem_cons.mp member with rfl | inRest
        · cases since with
          | none => exact below
          | some old => exact Nat.le_trans below (Nat.min_le_right _ _)
        · exact others a inRest

theorem Db.Ordered.carriedBound_pos {db : Db} (ordered : db.Ordered) (ring : Ring)
    (head : Release) (arch : Arch) : 1 ≤ db.carriedBound ring head arch := by
  unfold carriedBound renderedBefore
  cases found : (db.newestFirst ring).find? fun r =>
      r.seq < head.seq && head.seq ≤ r.seq + carryReach && db.rendered r arch with
  | none => exact Nat.le_max_left _ _
  | some r =>
      exact (ordered.seq_le (ordered.mem_newestFirst.mp (List.mem_of_find?_eq_some found))).1

/-- The rows retention protects in a ring that has releases: all from `low` on. -/
structure ProtectedFrom (db : Db) (keep : Nat) (ring : Ring) (rows : List Release) (low : Nat) :
    Prop where
  mem : ∀ r, r ∈ rows ↔ r ∈ db.ofRing ring ∧ low ≤ r.seq
  oldest : ∃ o, rows.getLast? = some o ∧ o.seq = low
  near : low ≤ max 1 ((db.ofRing ring).length + 1 - keep)
  carried : ∀ head, (db.ofRing ring).getLast? = some head → ∀ arch ∈ db.carriedArches head.id,
    low ≤ db.carriedBound ring head arch

section Protected

variable {w : World} (ordered : w.db.Ordered) {keep : Nat} (some_ : 1 ≤ keep) {ring : Ring}
include ordered some_

/-- The last `keep` rows of a ring, before the carried databases are asked for. -/
theorem newest_oldest {oldest : Release}
    (last : ((w.db.newestFirst ring).take keep).getLast? = some oldest) :
    oldest.seq = max 1 ((w.db.ofRing ring).length + 1 - keep) := by
  have falling := (ordered.newestFirst_falling ring).sublist (List.take_sublist keep _)
  obtain ⟨member, near⟩ := ordered.mem_take_newestFirst.mp (List.mem_of_getLast? last)
  have bounds := ordered.seq_le member
  obtain ⟨r, inRing, seq⟩ := ordered.exists_seq
    (show 1 ≤ max 1 ((w.db.ofRing ring).length + 1 - keep) by omega)
    (show max 1 ((w.db.ofRing ring).length + 1 - keep) ≤ (w.db.ofRing ring).length by omega)
  have lowest := Db.last_le falling last
    (ordered.mem_take_newestFirst.mpr ⟨inRing, by omega⟩)
  omega

theorem newest_head {head : Release}
    (first : ((w.db.newestFirst ring).take keep).head? = some head) :
    (w.db.ofRing ring).getLast? = some head := by
  rw [ordered.newestFirst_eq, List.head?_take] at first
  simpa [Nat.ne_of_gt some_] using first

/-- With the releases back to `since` added, or without when that adds none. -/
theorem protectedFrom_since {oldest : Release} {since : Nat}
    (last : ((w.db.newestFirst ring).take keep).getLast? = some oldest)
    (before : since < oldest.seq)
    (bounded : ∀ head, (w.db.ofRing ring).getLast? = some head →
      ∀ arch ∈ w.db.carriedArches head.id, since ≤ w.db.carriedBound ring head arch) :
    ∃ low, ProtectedFrom w.db keep ring ((w.db.newestFirst ring).take keep ++
      (w.db.newestFirst ring).filter fun r => since ≤ r.seq && r.seq < oldest.seq) low := by
  have oldestSeq := newest_oldest ordered some_ last
  have inOlder : ∀ r, r ∈ ((w.db.newestFirst ring).filter fun r =>
      since ≤ r.seq && r.seq < oldest.seq) ↔
        r ∈ w.db.ofRing ring ∧ since ≤ r.seq ∧ r.seq < oldest.seq := by
    intro r
    rw [List.mem_filter, ordered.mem_newestFirst]
    simp
  have falling := (ordered.newestFirst_falling ring).sublist
    (List.filter_sublist (p := fun r => since ≤ r.seq && r.seq < oldest.seq))
  have oldestIn := ordered.mem_take_newestFirst.mp (List.mem_of_getLast? last)
  have oldestBounds := ordered.seq_le oldestIn.1
  generalize (w.db.newestFirst ring).filter (fun r => since ≤ r.seq && r.seq < oldest.seq) = older
    at inOlder falling ⊢
  cases lowest : older.getLast? with
  | none =>
      -- Nothing is older: the oldest is the first release.
      have empty : older = [] := List.getLast?_eq_none_iff.mp lowest
      subst empty
      have first : oldest.seq = 1 := by
        by_contra notFirst
        obtain ⟨r, member, seq⟩ := ordered.exists_seq (show 1 ≤ oldest.seq - 1 by omega)
          (show oldest.seq - 1 ≤ (w.db.ofRing ring).length by omega)
        exact absurd ((inOlder r).mpr ⟨member, by omega, by omega⟩) List.not_mem_nil
      refine ⟨oldest.seq, ?_, ⟨oldest, by simpa using last, rfl⟩, by omega, ?_⟩
      · intro r
        rw [List.append_nil, ordered.mem_take_newestFirst]
        constructor
        · rintro ⟨member, _⟩
          exact ⟨member, by have := ordered.seq_le member; omega⟩
        · rintro ⟨member, _⟩
          exact ⟨member, by have := ordered.seq_le member; omega⟩
      · intro head _ arch _
        rw [first]
        exact ordered.carriedBound_pos ring head arch
  | some o =>
      have oIn := (inOlder o).mp (List.mem_of_getLast? lowest)
      have lowestSeq : ∀ r ∈ older, o.seq ≤ r.seq := fun r member => Db.last_le falling lowest member
      have oBounds := ordered.seq_le oIn.1
      have reached : o.seq ≤ max 1 since := by
        obtain ⟨r, member, seq⟩ := ordered.exists_seq (show 1 ≤ max 1 since by omega)
          (show max 1 since ≤ (w.db.ofRing ring).length by omega)
        have := lowestSeq r ((inOlder r).mpr ⟨member, by omega, by omega⟩)
        omega
      refine ⟨o.seq, ?_, ⟨o, by rw [List.getLast?_append, lowest]; rfl, rfl⟩, by omega, ?_⟩
      · intro r
        rw [List.mem_append, ordered.mem_take_newestFirst, inOlder]
        constructor
        · rintro (⟨member, near⟩ | ⟨member, low, high⟩)
          · exact ⟨member, by omega⟩
          · exact ⟨member, lowestSeq r ((inOlder r).mpr ⟨member, low, high⟩)⟩
        · rintro ⟨member, low⟩
          by_cases high : r.seq < oldest.seq
          · exact .inr ⟨member, by omega, high⟩
          · exact .inl ⟨member, by have := ordered.seq_le member; omega⟩
      · intro head isHead arch carries
        have := bounded head isHead arch carries
        have := ordered.carriedBound_pos ring head arch
        omega

/-- Retention protects a suffix of the ring's releases. -/
theorem protectedRows_spec :
    (protectedRows keep ring).Spec (.alone World Event) w fun result w' => w = w' ∧
      ∃ rows, result = .ok rows ∧
        ((w.db.ofRing ring = [] ∧ rows = []) ∨ ∃ low, ProtectedFrom w.db keep ring rows low) := by
  unfold protectedRows
  refine Program.Spec.bind (Program.alone_query ?_)
  cases first : ((w.db.newestFirst ring).take keep).head? with
  | none =>
      have nil : (w.db.newestFirst ring).take keep = [] := List.head?_eq_none_iff.mp first
      have empty : w.db.ofRing ring = [] := by
        rw [List.take_eq_nil_iff, ordered.newestFirst_eq] at nil
        rcases nil with zero | reversed
        · omega
        · simpa using reversed
      simp only [nil]
      exact ⟨rfl, [], rfl, .inl ⟨empty, rfl⟩⟩
  | some head =>
      cases last : ((w.db.newestFirst ring).take keep).getLast? with
      | none =>
          rw [List.getLast?_eq_none_iff.mp last] at first
          cases first
      | some oldest =>
          have oldestSeq := newest_oldest ordered some_ last
          have isHead := newest_head ordered some_ first
          have newest : (∀ arch ∈ w.db.carriedArches head.id,
              oldest.seq ≤ w.db.carriedBound ring head arch) →
              ProtectedFrom w.db keep ring ((w.db.newestFirst ring).take keep) oldest.seq := by
            intro bounded
            refine ⟨?_, ⟨oldest, last, rfl⟩, by omega, ?_⟩
            · intro r
              rw [ordered.mem_take_newestFirst]
              constructor
              · rintro ⟨member, near⟩
                exact ⟨member, by have := ordered.seq_le member; omega⟩
              · rintro ⟨member, low⟩
                exact ⟨member, by have := ordered.seq_le member; omega⟩
            · intro head' isHead' arch carries
              rw [isHead] at isHead'
              cases isHead'
              exact bounded arch carries
          simp only [first, last]
          refine Program.Spec.bind (Program.alone_query ?_)
          refine Program.Spec.bind ((carriedSince_spec ring head _ none w).mono ?_)
          rintro result _ ⟨rfl, low, rfl, none, bounds⟩
          cases low with
          | none =>
              refine ⟨rfl, _, rfl, .inr ⟨oldest.seq, newest ?_⟩⟩
              have empty : w.db.carriedArches head.id = [] := (none rfl).1
              simp [empty]
          | some since =>
              have bounded := (bounds since rfl).2
              by_cases before : since < oldest.seq
              · simp only [if_pos before]
                refine Program.Spec.bind (Program.alone_query ?_)
                refine ⟨rfl, _, rfl, .inr ?_⟩
                refine protectedFrom_since ordered some_ last before ?_
                intro head' isHead'
                rw [isHead] at isHead'
                cases isHead'
                exact bounded
              · simp only [if_neg before]
                refine ⟨rfl, _, rfl, .inr ⟨oldest.seq, newest ?_⟩⟩
                intro arch carries
                have := bounded arch carries
                omega

end Protected

/-! ## All rings -/

/-- What retention gives: the protected releases of each ring are those from `low` on, the
kept checkpoints those from `floor` on, and `floor` is the newest checkpoint at or before
`low`, `0` when there is none. -/
structure Retains (db : Db) (keep : Nat) (kept : Retained) (visited : List Ring)
    (low floor : Ring → Nat) : Prop where
  protectedOnly : ∀ id ∈ kept.protectedReleases, ∃ r ∈ db.releases, r.id = id ∧ r.ring ∈ visited
  checkpointOnly : ∀ id ∈ kept.keptCheckpoints, ∃ r ∈ db.releases, r.id = id ∧ r.ring ∈ visited
  mem_protected : ∀ ring ∈ visited, ∀ r ∈ db.ofRing ring,
    r.id ∈ kept.protectedReleases ↔ low ring ≤ r.seq
  mem_checkpoints : ∀ ring ∈ visited, ∀ r ∈ db.ofRing ring,
    r.id ∈ kept.keptCheckpoints ↔ r.checkpoint = true ∧ floor ring ≤ r.seq
  mem_seqs : ∀ ring seq, (ring, seq) ∈ kept.checkpointSeq ↔
    ring ∈ visited ∧ seq = floor ring ∧ 0 < floor ring
  floor_le : ∀ ring ∈ visited, floor ring ≤ low ring
  floor_row : ∀ ring ∈ visited, 0 < floor ring →
    ∃ r ∈ db.ofRing ring, r.checkpoint = true ∧ r.seq = floor ring
  newest : ∀ ring ∈ visited, ∀ r ∈ db.ofRing ring, r.checkpoint = true → r.seq ≤ low ring →
    r.seq ≤ floor ring
  near : ∀ ring ∈ visited, low ring ≤ max 1 ((db.ofRing ring).length + 1 - keep)
  carried : ∀ ring ∈ visited, ∀ head, (db.ofRing ring).getLast? = some head →
    ∀ arch ∈ db.carriedArches head.id, low ring ≤ db.carriedBound ring head arch

/-- What one more ring adds to what the rings before it gave. -/
structure Adds (db : Db) (keep : Nat) (kept kept' : Retained) (ring : Ring) (low floor : Nat) :
    Prop where
  releases : ∀ id, id ∈ kept'.protectedReleases ↔ id ∈ kept.protectedReleases ∨
    ∃ r ∈ db.ofRing ring, r.id = id ∧ low ≤ r.seq
  checkpoints : ∀ id, id ∈ kept'.keptCheckpoints ↔ id ∈ kept.keptCheckpoints ∨
    ∃ r ∈ db.ofRing ring, r.id = id ∧ r.checkpoint = true ∧ floor ≤ r.seq
  seqs : ∀ entry, entry ∈ kept'.checkpointSeq ↔ entry ∈ kept.checkpointSeq ∨
    entry = (ring, floor) ∧ 0 < floor
  floor_le : floor ≤ low
  floor_row : 0 < floor → ∃ r ∈ db.ofRing ring, r.checkpoint = true ∧ r.seq = floor
  newest : ∀ r ∈ db.ofRing ring, r.checkpoint = true → r.seq ≤ low → r.seq ≤ floor
  near : low ≤ max 1 ((db.ofRing ring).length + 1 - keep)
  carried : ∀ head, (db.ofRing ring).getLast? = some head →
    ∀ arch ∈ db.carriedArches head.id, low ≤ db.carriedBound ring head arch

theorem Retains.extend {db : Db} (ordered : db.Ordered) {keep : Nat} {kept kept' : Retained}
    {visited : List Ring} {low floor : Ring → Nat} (retains : Retains db keep kept visited low floor)
    {ring : Ring} (new : ring ∉ visited) {l f : Nat} (adds : Adds db keep kept kept' ring l f) :
    Retains db keep kept' (ring :: visited) (Function.update low ring l)
      (Function.update floor ring f) := by
  -- A release is of one ring: what the other rings gave holds none of this one's, and back.
  have mine : ∀ r ∈ db.ofRing ring, ∀ ids : List ReleaseId,
      (∀ id ∈ ids, ∃ q ∈ db.releases, q.id = id ∧ q.ring ∈ visited) → r.id ∉ ids := by
    intro r member ids only inIds
    obtain ⟨q, qMember, same, inOver⟩ := only _ inIds
    rw [ordered.eq_of_id qMember (Db.mem_ofRing.mp member).1 same,
      (Db.mem_ofRing.mp member).2] at inOver
    exact new inOver
  have other : ∀ of ∈ visited, ∀ r ∈ db.ofRing of, ∀ q ∈ db.ofRing ring, q.id ≠ r.id := by
    intro of inOver r member q qMember same
    have eq := ordered.eq_of_id (Db.mem_ofRing.mp qMember).1 (Db.mem_ofRing.mp member).1 same
    rw [← (Db.mem_ofRing.mp member).2, ← eq, (Db.mem_ofRing.mp qMember).2] at inOver
    exact new inOver
  have apart : ∀ of ∈ visited, of ≠ ring := fun of inOver same => new (same ▸ inOver)
  refine ⟨?_, ?_, ?_, ?_, ?_, ?_, ?_, ?_, ?_, ?_⟩
  · intro id member
    rcases (adds.releases id).mp member with old | ⟨r, inRing, rfl, _⟩
    · obtain ⟨r, inTable, same, inOver⟩ := retains.protectedOnly id old
      exact ⟨r, inTable, same, List.mem_cons_of_mem _ inOver⟩
    · exact ⟨r, (Db.mem_ofRing.mp inRing).1, rfl, by simp [(Db.mem_ofRing.mp inRing).2]⟩
  · intro id member
    rcases (adds.checkpoints id).mp member with old | ⟨r, inRing, rfl, _⟩
    · obtain ⟨r, inTable, same, inOver⟩ := retains.checkpointOnly id old
      exact ⟨r, inTable, same, List.mem_cons_of_mem _ inOver⟩
    · exact ⟨r, (Db.mem_ofRing.mp inRing).1, rfl, by simp [(Db.mem_ofRing.mp inRing).2]⟩
  · intro of inOver r member
    rw [adds.releases]
    rcases List.mem_cons.mp inOver with rfl | old
    · rw [Function.update_self, or_iff_right (mine r member _ retains.protectedOnly)]
      constructor
      · rintro ⟨q, qMember, same, seq⟩
        rwa [ordered.eq_of_id (Db.mem_ofRing.mp qMember).1 (Db.mem_ofRing.mp member).1 same] at seq
      · exact fun seq => ⟨r, member, rfl, seq⟩
    · rw [Function.update_of_ne (apart of old), ← retains.mem_protected of old r member]
      refine or_iff_left ?_
      rintro ⟨q, qMember, same, _⟩
      exact other of old r member q qMember same
  · intro of inOver r member
    rw [adds.checkpoints]
    rcases List.mem_cons.mp inOver with rfl | old
    · rw [Function.update_self, or_iff_right (mine r member _ retains.checkpointOnly)]
      constructor
      · rintro ⟨q, qMember, same, seq⟩
        rwa [ordered.eq_of_id (Db.mem_ofRing.mp qMember).1 (Db.mem_ofRing.mp member).1 same] at seq
      · exact fun seq => ⟨r, member, rfl, seq⟩
    · rw [Function.update_of_ne (apart of old), ← retains.mem_checkpoints of old r member]
      refine or_iff_left ?_
      rintro ⟨q, qMember, same, _⟩
      exact other of old r member q qMember same
  · intro of seq
    rw [adds.seqs, retains.mem_seqs, Prod.mk.injEq]
    by_cases same : of = ring
    · subst same
      rw [Function.update_self]
      simp [new]
    · rw [Function.update_of_ne same]
      simp [same]
  all_goals
    intro of inOver
    rcases List.mem_cons.mp inOver with rfl | old
  · rw [Function.update_self, Function.update_self]
    exact adds.floor_le
  · rw [Function.update_of_ne (apart of old), Function.update_of_ne (apart of old)]
    exact retains.floor_le of old
  · rw [Function.update_self]
    exact adds.floor_row
  · rw [Function.update_of_ne (apart of old)]
    exact retains.floor_row of old
  · rw [Function.update_self, Function.update_self]
    exact adds.newest
  · rw [Function.update_of_ne (apart of old), Function.update_of_ne (apart of old)]
    exact retains.newest of old
  · rw [Function.update_self]
    exact adds.near
  · rw [Function.update_of_ne (apart of old)]
    exact retains.near of old
  · rw [Function.update_self]
    exact adds.carried
  · rw [Function.update_of_ne (apart of old)]
    exact retains.carried of old

section Rings

variable {w : World} (ordered : w.db.Ordered) {keep : Nat} (some_ : 1 ≤ keep)
include ordered some_

theorem retainRing_spec (ring : Ring) (acc : Retained) :
    (retainRing keep ring acc).Spec (.alone World Event) w fun result w' => w = w' ∧
      ∃ acc' low floor, result = .ok acc' ∧ Adds w.db keep acc acc' ring low floor := by
  unfold retainRing
  refine Program.Spec.bind ((protectedRows_spec ordered some_).mono ?_)
  rintro result _ ⟨rfl, rows, rfl, ⟨empty, rfl⟩ | ⟨low, from_⟩⟩
  · refine ⟨rfl, _, 1, 0, rfl, ?_⟩
    constructor <;> simp [empty]
  obtain ⟨oldest, last, rfl⟩ := from_.oldest
  simp only [last]
  refine Program.Spec.bind (Program.alone_query ?_)
  cases found : w.db.checkpointAtOrBefore ring oldest.seq with
  | none =>
      have none : ∀ r ∈ w.db.ofRing ring, r.checkpoint = true → ¬ r.seq ≤ oldest.seq := by
        intro r member flag
        have := List.find?_eq_none.mp found r (ordered.mem_newestFirst.mpr member)
        simpa [flag] using this
      simp only [found]
      refine ⟨rfl, _, oldest.seq, 0, rfl, ?_, ?_, ?_, Nat.zero_le _, by simp, ?_, from_.near,
        from_.carried⟩
      · intro id
        simp only [List.mem_append, List.mem_map, from_.mem]
        exact or_congr_right ⟨fun ⟨r, ⟨m, s⟩, e⟩ => ⟨r, m, e, s⟩, fun ⟨r, m, e, s⟩ => ⟨r, ⟨m, s⟩, e⟩⟩
      · intro id
        simp only [List.mem_append, List.mem_map, List.mem_filter, from_.mem]
        refine or_congr_right ⟨?_, ?_⟩
        · rintro ⟨r, ⟨⟨member, _⟩, flag⟩, same⟩
          exact ⟨r, member, same, flag, Nat.zero_le _⟩
        · rintro ⟨r, member, same, flag, _⟩
          exact ⟨r, ⟨⟨member, by have := none r member flag; omega⟩, flag⟩, same⟩
      · simp
      · intro r member flag below
        exact absurd below (none r member flag)
  | some base =>
      have passed : base.checkpoint = true ∧ base.seq ≤ oldest.seq := by
        simpa using List.find?_some found
      have inRing : base ∈ w.db.ofRing ring :=
        ordered.mem_newestFirst.mp (List.mem_of_find?_eq_some found)
      have newest : ∀ r ∈ w.db.ofRing ring, r.checkpoint = true → r.seq ≤ oldest.seq →
          r.seq ≤ base.seq := by
        intro r member flag below
        exact Db.find?_newest (ordered.newestFirst_falling ring) found
          (ordered.mem_newestFirst.mpr member) (by simp [flag, below])
      have positive := (ordered.seq_le inRing).1
      simp only [found]
      refine ⟨rfl, _, oldest.seq, base.seq, rfl, ?_, ?_, ?_, passed.2, fun _ => ⟨base, inRing,
        passed.1, rfl⟩, newest, from_.near, from_.carried⟩
      · intro id
        simp only [List.mem_append, List.mem_map, from_.mem]
        exact or_congr_right ⟨fun ⟨r, ⟨m, s⟩, e⟩ => ⟨r, m, e, s⟩, fun ⟨r, m, e, s⟩ => ⟨r, ⟨m, s⟩, e⟩⟩
      · intro id
        have added : ∀ ids : List ReleaseId, id ∈ (if base.id ∈ ids then ids else ids ++ [base.id]) ↔
            id ∈ ids ∨ id = base.id := by
          intro ids
          split
          · exact ⟨.inl, fun h => h.elim (fun x => x) fun e => e ▸ ‹_›⟩
          · simp
        simp only [added, List.mem_append, List.mem_map, List.mem_filter, from_.mem, or_assoc]
        refine or_congr_right ⟨?_, ?_⟩
        · rintro (⟨r, ⟨⟨member, low⟩, flag⟩, same⟩ | rfl)
          · exact ⟨r, member, same, flag, Nat.le_trans passed.2 low⟩
          · exact ⟨base, inRing, rfl, passed.1, Nat.le_refl _⟩
        · rintro ⟨r, member, same, flag, above⟩
          by_cases low : oldest.seq ≤ r.seq
          · exact .inl ⟨r, ⟨⟨member, low⟩, flag⟩, same⟩
          · have atBase := newest r member flag (by omega)
            rw [ordered.seq_injective member inRing (by omega)] at same
            exact .inr same.symm
      · intro entry
        simp [Nat.lt_of_lt_of_le Nat.zero_lt_one positive]

theorem retainRings_spec (todo visited : List Ring) (distinct : (todo ++ visited).Nodup) (acc : Retained)
    (low floor : Ring → Nat) (retains : Retains w.db keep acc visited low floor) :
    (retainRings keep todo acc).Spec (.alone World Event) w fun result w' => w = w' ∧
      ∃ kept low floor, result = .ok kept ∧
        Retains w.db keep kept (todo.reverse ++ visited) low floor := by
  induction todo generalizing visited acc low floor with
  | nil => exact ⟨rfl, acc, low, floor, rfl, retains⟩
  | cons ring rest ih =>
      have new : ring ∉ visited := fun inOver =>
        (List.nodup_cons.mp distinct).1 (List.mem_append_right rest inOver)
      refine Program.Spec.bind ((retainRing_spec ordered some_ ring acc).mono ?_)
      rintro result _ ⟨rfl, acc', l, f, rfl, adds⟩
      have distinct' : (rest ++ ring :: visited).Nodup := by
        refine (List.Perm.nodup_iff ?_).mp distinct
        exact List.perm_middle.symm
      refine (ih (ring :: visited) distinct' acc' _ _ (retains.extend ordered new adds)).mono ?_
      rintro result' _ ⟨rfl, kept, low', floor', rfl, final⟩
      exact ⟨rfl, kept, low', floor', rfl, by simpa using final⟩

/-- Retention alone: it changes nothing, always answers, and protects what `Retains` says. -/
theorem retention_spec :
    (retention keep).Spec (.alone World Event) w fun result w' => w = w' ∧
      ∃ kept low floor, result = .ok kept ∧ Retains w.db keep kept rings.reverse low floor := by
  refine (retainRings_spec ordered some_ rings [] (by decide) ⟨[], [], []⟩ (fun _ => 1)
    (fun _ => 0) ?_).mono ?_
  · constructor <;> simp
  · rintro result _ ⟨rfl, kept, low, floor, rfl, retains⟩
    exact ⟨rfl, kept, low, floor, rfl, by simpa using retains⟩

end Rings

end OmarchyPool
