/-
# OmarchyPool.Rooted -- a ring's releases, and the deltas between them

What the tables keep of a ring whatever becomes of its checkpoints: its live rows are its
head's selection, its releases follow one another by their parents, and a release's deltas
take its parent's selection to its own.  GC drops deltas: `floor` is, for each ring, the seq
up to which it may have dropped them, and no checkpoint is below it, so a walk down to a
checkpoint never crosses a dropped delta.
-/
import OmarchyPool.Requests

namespace OmarchyPool

open Lib

set_option autoImplicit false

/-! ## Releases at the end of a ring -/

/-- A ring's releases so far are the first of its releases later. -/
def Grown (w w' : World) : Prop :=
  ∀ ring, (w.db.ofRing ring).map (·.id) <+: (w'.db.ofRing ring).map (·.id)

theorem Grown.refl (w : World) : Grown w w := fun _ => List.prefix_rfl

theorem Grown.trans {a b d : World} (first : Grown a b) (second : Grown b d) : Grown a d :=
  fun ring => (first ring).trans (second ring)

theorem Grown.same {w : World} {db : Db} (same : w.db.SameReleases db) : Grown w (w.commit db) :=
  fun ring => by rw [World.commit_db, same.ofRing_id]

theorem Grown.create (w : World) (b : CreateBatch) : Grown w (w.commit (w.db.applyRelease b)) := by
  intro ring
  rw [World.commit_db, Db.applyRelease_ofRing]
  split
  · rw [List.map_append]
    exact List.prefix_append _ _
  · exact List.prefix_rfl

/-- A ring that has as many releases as before has the same head. -/
theorem Grown.head_eq {w w' : World} (grown : Grown w w') (before : w.db.Ordered)
    (after : w'.db.Ordered) {ring : Ring}
    (length : (w'.db.ofRing ring).length = (w.db.ofRing ring).length) :
    w'.db.ringHeads ring = w.db.ringHeads ring := by
  have ids : (w.db.ofRing ring).map (·.id) = (w'.db.ofRing ring).map (·.id) :=
    (grown ring).eq_of_length (by simp [length])
  rw [before.heads, after.heads, ← List.getLast?_map, ← List.getLast?_map, ids]

theorem Grown.length_le {w w' : World} (grown : Grown w w') (ring : Ring) :
    (w.db.ofRing ring).length ≤ (w'.db.ofRing ring).length := by
  simpa using (grown ring).length_le

/-- A batch that goes through is the ring's next release; and its parent is the ring's head if
it was when the request read its seq. -/
theorem Reads.Hold.next {c : Contract World Event} {flow : World → World → Prop}
    {ensured : ReleaseId → World → Prop} {body : CreateRelease} {reads : Reads} {now : World}
    (_ : reads.Hold c flow ensured body now) (before : reads.atSeq.db.Ordered)
    (ordered : now.db.Ordered) (grown : Grown reads.atSeq now)
    (head : reads.atSeq.db.ringHeads reads.ring = reads.parent.map (·.id)) {db' : Db}
    (done : Db.createRelease (reads.batch body) now.db = .ok db') :
    (reads.batch body).seq = (now.db.ofRing reads.ring).length + 1 ∧
      (reads.batch body).parent = now.db.ringHeads reads.ring ∧
      db' = now.db.applyRelease (reads.batch body) := by
  have seq : (reads.batch body).seq = (reads.atSeq.db.ofRing reads.ring).length + 1 :=
    congrArg (· + 1) (before.maxSeq_eq reads.ring)
  have lengths := grown.length_le reads.ring
  obtain ⟨next, rfl⟩ := ordered.seq_of_createRelease
    (show 1 ≤ (reads.batch body).seq by omega)
    (show (reads.batch body).seq ≤ (now.db.ofRing reads.ring).length + 1 by omega) done
  have length : (now.db.ofRing reads.ring).length = (reads.atSeq.db.ofRing reads.ring).length := by
    have : (reads.batch body).seq = (now.db.ofRing reads.ring).length + 1 := next
    omega
  refine ⟨next, ?_, rfl⟩
  rw [grown.head_eq before ordered length]
  exact head.symm

/-! ## The invariant -/

structure Rooted (floor : Ring → Nat) (w : World) : Prop where
  ordered : w.db.Ordered
  live : ∀ ring id, w.db.ringHeads ring = some id → w.db.ringPackages ring = w.selection id
  chain : ∀ r ∈ w.db.releases, (r.seq = 1 ∧ r.parentId = none) ∨
    ∃ q ∈ w.db.releases, r.parentId = some q.id ∧ q.ring = r.ring ∧ q.seq + 1 = r.seq
  above : ∀ r ∈ w.db.releases, r.checkpoint = true → floor r.ring ≤ r.seq
  deltas : ∀ r ∈ w.db.releases, ∀ p, r.parentId = some p → floor r.ring < r.seq →
    w.selection r.id = (w.db.releaseDeltas r.id).apply (w.selection p)
  low : ∀ ring, floor ring ≤ max 1 (w.db.ofRing ring).length

namespace Rooted

theorem fresh {floor : Ring → Nat} (low : ∀ ring, floor ring ≤ 1) (packages : List Package)
    (bucket : String → Option Blob) : Rooted floor (World.fresh packages bucket) := by
  constructor <;> simp [World.fresh]
  · exact ⟨by simp, by simp, fun _ => rfl, fun _ => rfl⟩
  · exact fun ring => .inl (low ring)

variable {floor : Ring → Nat} {w : World} (rooted : Rooted floor w)
include rooted

/-- The parent of a release is the one before it in its ring. -/
theorem parent {r : Release} (member : r ∈ w.db.releases) {p : ReleaseId}
    (isParent : r.parentId = some p) :
    ∃ q ∈ w.db.releases, q.id = p ∧ q.ring = r.ring ∧ q.seq < r.seq := by
  rcases rooted.chain r member with ⟨-, none⟩ | ⟨q, qMember, isQ, ring, seq⟩
  · rw [none] at isParent
    cases isParent
  · rw [isQ, Option.some.injEq] at isParent
    exact ⟨q, qMember, isParent, ring, by omega⟩

/-- A write that leaves the releases and the live rows: what is asked of the flags it sets and
the deltas it keeps. -/
theorem same {floor' : Ring → Nat} {db : Db} (same : w.db.SameReleases db)
    (live : db.ringPackages = w.db.ringPackages)
    (flags : ∀ r ∈ db.releases, r.checkpoint = true → floor' r.ring ≤ r.seq)
    (raised : ∀ ring, floor ring ≤ floor' ring)
    (low : ∀ ring, floor' ring ≤ max 1 (w.db.ofRing ring).length)
    (deltas : ∀ r ∈ w.db.releases, floor' r.ring < r.seq →
      db.releaseDeltas r.id = w.db.releaseDeltas r.id) :
    Rooted floor' (w.commit db) := by
  have kept := World.commit_selection_of_same same
  refine ⟨same.ordered rooted.ordered, ?_, ?_, flags, ?_, ?_⟩
  · intro ring id head
    rw [World.commit_db, same.heads] at head
    rw [kept, World.commit_db, live]
    exact rooted.live ring id head
  · intro r member
    obtain ⟨r₀, member₀, eq⟩ := same.symm.exists_fixed member
    have sameSeq : r₀.seq = r.seq := Release.seq_eq eq
    have sameParent : r₀.parentId = r.parentId := Release.parentId_eq eq
    have sameRing : r₀.ring = r.ring := Release.ring_eq eq
    rcases rooted.chain r₀ member₀ with ⟨first, none⟩ | ⟨q, qMember, parent, qRing, qSeq⟩
    · exact .inl ⟨sameSeq ▸ first, sameParent ▸ none⟩
    · obtain ⟨q', qMember', eq'⟩ := same.exists_fixed qMember
      refine .inr ⟨q', qMember', ?_, ?_, ?_⟩
      · rw [← sameParent, parent, Release.id_eq eq']
      · rw [← sameRing, ← qRing]
        exact Release.ring_eq eq'
      · rw [← sameSeq, ← qSeq, Release.seq_eq eq']
  · intro r member p parent above
    obtain ⟨r₀, member₀, eq⟩ := same.symm.exists_fixed member
    have sameId : r₀.id = r.id := Release.id_eq eq
    have sameRing : r₀.ring = r.ring := Release.ring_eq eq
    have sameSeq : r₀.seq = r.seq := Release.seq_eq eq
    have sameParent : r₀.parentId = r.parentId := Release.parentId_eq eq
    rw [← sameRing, ← sameSeq] at above
    rw [kept, ← sameId, World.commit_db, deltas r₀ member₀ above]
    exact rooted.deltas r₀ member₀ p (sameParent.trans parent)
      (Nat.lt_of_le_of_lt (raised r₀.ring) above)
  · intro ring
    rw [World.commit_db, same.length_ofRing]
    exact low ring

/-- A ring's next release, from its head. -/
theorem create {b : CreateBatch} (next : b.seq = (w.db.ofRing b.ring).length + 1)
    (parent : b.parent = w.db.ringHeads b.ring) :
    Rooted floor (w.commit (w.db.applyRelease b)) := by
  have ordered := rooted.ordered
  have older : ∀ r ∈ w.db.releases, r.id ≠ w.db.nextRelease :=
    fun r member => Nat.ne_of_lt (ordered.fresh r member)
  have lengths : ∀ ring, (w.db.ofRing ring).length ≤ ((w.db.applyRelease b).ofRing ring).length := by
    intro ring
    rw [Db.applyRelease_ofRing]
    split <;> simp
  refine ⟨ordered.applyRelease next, ?_, ?_, ?_, ?_, ?_⟩
  · intro ring id head
    rw [World.commit_selection_applyRelease ordered]
    simp only [World.commit_db, Db.applyRelease_ringHeads, Db.applyRelease_ringPackages] at head ⊢
    by_cases here : ring = b.ring
    · subst here
      simp only [Function.update_self, Option.some.injEq] at head ⊢
      rw [← head, Function.update_self]
    · rw [Function.update_of_ne here] at head ⊢
      rw [Function.update_of_ne (Nat.ne_of_lt (ordered.head_lt head))]
      exact rooted.live ring id head
  · intro r member
    simp only [World.commit_db, Db.applyRelease_releases, List.mem_append,
      List.mem_singleton] at member ⊢
    rcases member with old | rfl
    · rcases rooted.chain r old with first | ⟨q, qMember, rest⟩
      · exact .inl first
      · exact .inr ⟨q, .inl qMember, rest⟩
    · cases head : w.db.ringHeads b.ring with
      | none =>
          have empty : w.db.ofRing b.ring = [] := by
            rw [ordered.heads] at head
            simpa using head
          exact .inl ⟨by simp [CreateBatch.row, next, empty], parent.trans head⟩
      | some id =>
          obtain ⟨q, qMember, same, seq⟩ := ordered.head_row head
          obtain ⟨inTable, sameRing⟩ := Db.mem_ofRing.mp qMember
          refine .inr ⟨q, .inl inTable, ?_, sameRing, ?_⟩
          · rw [same]
            exact parent.trans head
          · simp only [CreateBatch.row, next, seq]
  · intro r member flag
    simp only [World.commit_db, Db.applyRelease_releases, List.mem_append,
      List.mem_singleton] at member
    rcases member with old | rfl
    · exact rooted.above r old flag
    · have := rooted.low b.ring
      simp only [CreateBatch.row, next]
      omega
  · intro r member p isParent above
    rw [World.commit_selection_applyRelease ordered]
    simp only [World.commit_db, Db.applyRelease_releases, List.mem_append, List.mem_singleton,
      Db.applyRelease_releaseDeltas] at member ⊢
    rcases member with old | rfl
    · obtain ⟨q, qMember, rfl, -⟩ := rooted.parent old isParent
      rw [Function.update_of_ne (older r old), Function.update_of_ne (older r old),
        Function.update_of_ne (older q qMember)]
      exact rooted.deltas r old q.id isParent above
    · have head : w.db.ringHeads b.ring = some p := parent.symm.trans isParent
      rw [Function.update_of_ne (Nat.ne_of_lt (ordered.head_lt head)), ← rooted.live b.ring p head]
      simp [CreateBatch.row]
  · intro ring
    have := rooted.low ring
    have := lengths ring
    rw [World.commit_db]
    omega

end Rooted

end OmarchyPool
