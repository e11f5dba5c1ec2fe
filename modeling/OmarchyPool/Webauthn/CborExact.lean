/-
# OmarchyPool.Webauthn.CborExact -- what is decoded is what is encoded

An item is decoded at a place exactly when the bytes there encode it, it fits the levels left and no key of a
map in it comes twice (`decodeItem_iff`), and it ends where they end.  The two directions are two inductions on
the levels, each with one on the items of an array and one on the entries of a map.
-/
import OmarchyPool.Webauthn.CborHeads

namespace OmarchyPool.Webauthn

open Lib BigEndian Manifest

set_option autoImplicit false

theorem key?_toCbor (k : Key) : k.toCbor.key? = some k := by
  cases k <;> rfl

theorem toCbor_of_key? {v : Cbor} {k : Key} (its : v.key? = some k) : v = k.toCbor := by
  cases v with
  | int n =>
      cases its
      rfl
  | text s =>
      cases its
      rfl
  | bytes b => cases its
  | array items => cases its
  | map entries => cases its
  | bool b => cases its
  | null => cases its

variable {text : Bytes → Option Text} {bytes : Bytes}

/-! ## What is decoded is encoded -/

section Sound

variable {read : Nat → Except CborError (Cbor × Nat)} {fits : Cbor → Prop}

/-- What `read` decodes the bytes encode, and it fits. -/
def ReadsEncoded (text : Bytes → Option Text) (bytes : Bytes) (read : Nat → Except CborError (Cbor × Nat))
    (fits : Cbor → Prop) : Prop :=
  ∀ start v stop, read start = .ok (v, stop) → ∃ b, Encodes text v b ∧ Piece bytes b start stop ∧ fits v

theorem decodeItems_sound (sound : ReadsEncoded text bytes read fits) {n i j : Nat} {out items : List Cbor}
    (within : i ≤ bytes.length) (decoded : decodeItems read n i out = .ok (items, j)) :
    ∃ new body, items = out ++ new ∧ new.length = n ∧ EncodesItems text new body ∧ Piece bytes body i j ∧
      ∀ v ∈ new, fits v := by
  induction n generalizing i out with
  | zero =>
      obtain ⟨rfl, rfl⟩ := Prod.mk.inj (Except.ok.inj decoded)
      exact ⟨[], [], by simp, rfl, .nil, piece_nil within, by simp⟩
  | succ n ih =>
      unfold decodeItems at decoded
      cases first : read i with
      | error e =>
          rw [first] at decoded
          cases decoded
      | ok pair =>
          obtain ⟨v, stop⟩ := pair
          obtain ⟨b, encoded, piece, its⟩ := sound i v stop first
          rw [first] at decoded
          obtain ⟨new, body, rfl, length, rest, pieces, all⟩ := ih piece.within decoded
          exact ⟨v :: new, b ++ body, by simp, by simp [length], .cons encoded rest, piece.append pieces,
            List.forall_mem_cons.mpr ⟨its, all⟩⟩

theorem decodeEntries_sound (sound : ReadsEncoded text bytes read fits) {n i j : Nat} {out entries : List (Key × Cbor)}
    (within : i ≤ bytes.length) (distinct : (out.map Prod.fst).Nodup)
    (decoded : decodeEntries read n i out = .ok (entries, j)) :
    ∃ new body, entries = out ++ new ∧ new.length = n ∧ EncodesEntries text new body ∧ Piece bytes body i j ∧
      (entries.map Prod.fst).Nodup ∧ ∀ e ∈ new, fits e.1.toCbor ∧ fits e.2 := by
  induction n generalizing i out with
  | zero =>
      obtain ⟨rfl, rfl⟩ := Prod.mk.inj (Except.ok.inj decoded)
      exact ⟨[], [], by simp, rfl, .nil, piece_nil within, distinct, by simp⟩
  | succ n ih =>
      unfold decodeEntries at decoded
      cases first : read i with
      | error e =>
          rw [first] at decoded
          cases decoded
      | ok pair =>
          obtain ⟨kv, at1⟩ := pair
          obtain ⟨kb, keyEncoded, keyPiece, keyFits⟩ := sound i kv at1 first
          rw [first] at decoded
          simp only [bind, Except.bind] at decoded
          cases isKey : kv.key? with
          | none =>
              rw [isKey] at decoded
              cases decoded
          | some k =>
              rw [isKey] at decoded
              simp only at decoded
              split at decoded
              · cases decoded
              · rename_i fresh
                cases second : read at1 with
                | error e =>
                    rw [second] at decoded
                    cases decoded
                | ok pair =>
                    obtain ⟨v, at2⟩ := pair
                    obtain ⟨vb, encoded, piece, its⟩ := sound at1 v at2 second
                    rw [second] at decoded
                    have longer : ((out ++ [(k, v)]).map Prod.fst).Nodup := by
                      rw [List.map_append, List.nodup_append]
                      refine ⟨distinct, by simp, ?_⟩
                      rintro a member b isB rfl
                      obtain ⟨old, isOld, rfl⟩ := List.mem_map.mp member
                      exact fresh (List.any_eq_true.mpr ⟨old, isOld, by simpa using isB⟩)
                    obtain ⟨new, body, rfl, length, rest, pieces, nodup, all⟩ := ih piece.within longer decoded
                    rw [toCbor_of_key? isKey] at keyEncoded keyFits
                    exact ⟨(k, v) :: new, kb ++ (vb ++ body), by simp, by simp [length], .cons keyEncoded encoded rest,
                      keyPiece.append (piece.append pieces), nodup, List.forall_mem_cons.mpr ⟨⟨keyFits, its⟩, all⟩⟩

theorem content_sound (sound : ReadsEncoded text bytes read fits) {major info arg i stop : Nat} {h : Bytes} {v : Cbor}
    (head : IsHead major arg h) (simple : major = 7 → h = [initial 7 info] ∨ ¬ (info = 20 ∨ info = 21 ∨ info = 22))
    (majors : major < 8) (within : i ≤ bytes.length)
    (decoded : content text read bytes major info arg i = .ok (v, stop)) :
    ∃ b, Encodes text v (h ++ b) ∧ Piece bytes b i stop ∧
      (∀ items, v = .array items → ∀ w ∈ items, fits w) ∧
      ∀ entries, v = .map entries →
        (entries.map Prod.fst).Nodup ∧ ∀ e ∈ entries, fits e.1.toCbor ∧ fits e.2 := by
  have plain {w : Cbor} (notArray : ∀ items, w ≠ .array items) (notMap : ∀ entries, w ≠ .map entries) :
      (∀ items, w = .array items → ∀ w ∈ items, fits w) ∧ ∀ entries, w = .map entries →
        (entries.map Prod.fst).Nodup ∧ ∀ e ∈ entries, fits e.1.toCbor ∧ fits e.2 :=
    ⟨fun items eq => absurd eq (notArray items), fun entries eq => absurd eq (notMap entries)⟩
  unfold content at decoded
  split at decoded
  · obtain ⟨rfl, rfl⟩ := Prod.mk.inj (Except.ok.inj decoded)
    refine ⟨[], ?_, piece_nil within, plain (by simp) (by simp)⟩
    rw [List.append_nil]
    exact .int head
  · obtain ⟨rfl, rfl⟩ := Prod.mk.inj (Except.ok.inj decoded)
    refine ⟨[], ?_, piece_nil within, plain (by simp) (by simp)⟩
    rw [List.append_nil]
    exact .negative head
  · by_cases enough : i + arg ≤ bytes.length
    · rw [need_eq_ok.mpr enough] at decoded
      obtain ⟨rfl, rfl⟩ := Prod.mk.inj (Except.ok.inj decoded)
      have piece := piece_take enough
      have length : ((bytes.drop i).take arg).length = arg := by
        have stop := piece.stop
        omega
      refine ⟨_, .bytes ?_, piece, plain (by simp) (by simp)⟩
      rwa [length]
    · rw [need_eq_error enough] at decoded
      cases decoded
  · by_cases enough : i + arg ≤ bytes.length
    · rw [need_eq_ok.mpr enough] at decoded
      simp only [bind, Except.bind] at decoded
      cases its : text ((bytes.drop i).take arg) with
      | none =>
          rw [its] at decoded
          cases decoded
      | some s =>
          rw [its] at decoded
          obtain ⟨rfl, rfl⟩ := Prod.mk.inj (Except.ok.inj decoded)
          have piece := piece_take enough
          have length : ((bytes.drop i).take arg).length = arg := by
            have stop := piece.stop
            omega
          refine ⟨_, .text ?_ its, piece, plain (by simp) (by simp)⟩
          rwa [length]
    · rw [need_eq_error enough] at decoded
      cases decoded
  · cases inner : decodeItems read arg i [] with
    | error e =>
        rw [inner] at decoded
        cases decoded
    | ok pair =>
        obtain ⟨items, j⟩ := pair
        rw [inner] at decoded
        obtain ⟨rfl, rfl⟩ := Prod.mk.inj (Except.ok.inj decoded)
        obtain ⟨new, body, rfl, rfl, encoded, piece, all⟩ := decodeItems_sound sound within inner
        refine ⟨body, .array head encoded, piece, ?_, by simp⟩
        rintro items eq
        cases eq
        exact all
  · cases inner : decodeEntries read arg i [] with
    | error e =>
        rw [inner] at decoded
        cases decoded
    | ok pair =>
        obtain ⟨entries, j⟩ := pair
        rw [inner] at decoded
        obtain ⟨rfl, rfl⟩ := Prod.mk.inj (Except.ok.inj decoded)
        obtain ⟨new, body, rfl, rfl, encoded, piece, nodup, all⟩ :=
          decodeEntries_sound sound within (by simp) inner
        refine ⟨body, .map head encoded, piece, by simp, ?_⟩
        rintro entries eq
        cases eq
        exact ⟨nodup, all⟩
  · cases decoded
  · have isSimple : major = 7 := by grind
    have alone (known : info = 20 ∨ info = 21 ∨ info = 22) : h = [initial 7 info] :=
      (simple isSimple).resolve_right (not_not.mpr known)
    split at decoded
    · rename_i known
      obtain ⟨rfl, rfl⟩ := Prod.mk.inj (Except.ok.inj decoded)
      rw [alone (.inl known), known]
      exact ⟨[], .false, piece_nil within, plain (by simp) (by simp)⟩
    · split at decoded
      · rename_i known
        obtain ⟨rfl, rfl⟩ := Prod.mk.inj (Except.ok.inj decoded)
        rw [alone (.inr (.inl known)), known]
        exact ⟨[], .true, piece_nil within, plain (by simp) (by simp)⟩
      · split at decoded
        · rename_i known
          obtain ⟨rfl, rfl⟩ := Prod.mk.inj (Except.ok.inj decoded)
          rw [alone (.inr (.inr known)), known]
          exact ⟨[], .null, piece_nil within, plain (by simp) (by simp)⟩
        · cases decoded

end Sound

/-- What is decoded the bytes encode, and it fits the levels. -/
theorem decodeItem_sound (levels : Nat) :
    ReadsEncoded text bytes (decodeItem text bytes levels) (Fits levels) := by
  induction levels with
  | zero =>
      intro start v stop decoded
      cases decoded
  | succ levels ih =>
      intro start v stop decoded
      unfold decodeItem at decoded
      cases here : bytes[start]? with
      | none =>
          rw [here] at decoded
          cases decoded
      | some head =>
          rw [here] at decoded
          simp only [bind, Except.bind] at decoded
          cases read : argument bytes (head &&& 0x1f).toNat (start + 1) with
          | error e =>
              rw [read] at decoded
              cases decoded
          | ok pair =>
              obtain ⟨arg, i⟩ := pair
              rw [read] at decoded
              have inside : start + 1 ≤ bytes.length := (List.getElem?_eq_some_iff.mp here).1
              obtain ⟨rest, its, piece⟩ := (argument_iff inside).mp read
              obtain ⟨majors, -⟩ := parts_lt head
              have isHead : IsHead (head >>> 5).toNat arg (head :: rest) :=
                ⟨_, rest, its, by rw [initial_of_parts]⟩
              have simple : (head >>> 5).toNat = 7 → head :: rest = [initial 7 (head &&& 0x1f).toNat] ∨
                  ¬ ((head &&& 0x1f).toNat = 20 ∨ (head &&& 0x1f).toNat = 21 ∨ (head &&& 0x1f).toNat = 22) := by
                intro seven
                rw [← seven, initial_of_parts]
                generalize (head &&& 0x1f).toNat = info at its
                cases its with
                | direct small => exact .inl rfl
                | one small => exact .inr (by decide)
                | two small => exact .inr (by decide)
                | four small => exact .inr (by decide)
                | eight small => exact .inr (by decide)
              obtain ⟨b, encoded, body, arrays, maps⟩ :=
                content_sound ih isHead simple majors piece.within decoded
              refine ⟨_, encoded, (piece_cons here piece).append body, ?_⟩
              cases v with
              | array items => exact arrays items rfl
              | map entries => exact maps entries rfl
              | int n => trivial
              | bytes b => trivial
              | text s => trivial
              | bool b => trivial
              | null => trivial

/-! ## What is encoded is decoded, or nothing is -/

section Encoded

variable {read : Nat → Except CborError (Cbor × Nat)} {fits : Cbor → Prop}

/-- Where bytes encode a value, `read` decodes that value and nothing else, and does when it fits. -/
def DecodesEncoded (text : Bytes → Option Text) (bytes : Bytes) (read : Nat → Except CborError (Cbor × Nat))
    (fits : Cbor → Prop) : Prop :=
  ∀ v b start stop r, Encodes text v b → Piece bytes b start stop → (read start = .ok r ↔ fits v ∧ r = (v, stop))

/-- Reading fails where what stands there does not fit. -/
theorem DecodesEncoded.error (decodes : DecodesEncoded text bytes read fits) {v : Cbor} {b : Bytes} {start stop : Nat}
    (encoded : Encodes text v b) (piece : Piece bytes b start stop) (unfit : ¬ fits v) :
    ∃ e, read start = .error e := by
  cases decoded : read start with
  | error e => exact ⟨e, rfl⟩
  | ok r => exact absurd ((decodes v b start stop r encoded piece).mp decoded).1 unfit

theorem decodeItems_encoded (decodes : DecodesEncoded text bytes read fits) {items out : List Cbor} {body : Bytes}
    {i j : Nat} {r : List Cbor × Nat} (encoded : EncodesItems text items body) (piece : Piece bytes body i j) :
    decodeItems read items.length i out = .ok r ↔ (∀ v ∈ items, fits v) ∧ r = (out ++ items, j) := by
  induction items generalizing i out body with
  | nil =>
      cases encoded
      have stop := piece.stop
      simp only [List.length_nil, Nat.add_zero] at stop
      subst stop
      simp [decodeItems, eq_comm]
  | cons v rest ih =>
      cases encoded with
      | @cons _ _ b more first later =>
          obtain ⟨here, next⟩ := piece_append.mp piece
          rw [List.length_cons, decodeItems, List.forall_mem_cons]
          by_cases its : fits v
          · rw [(decodes v b i _ _ first here).mpr ⟨its, rfl⟩]
            show decodeItems read rest.length (i + b.length) (out ++ [v]) = .ok r ↔ _
            rw [ih later next]
            simp [its]
          · obtain ⟨e, failed⟩ := decodes.error first here its
            rw [failed]
            simp [bind, Except.bind, its]

theorem decodeEntries_encoded (decodes : DecodesEncoded text bytes read fits) {entries out : List (Key × Cbor)}
    {body : Bytes} {i j : Nat} {r : List (Key × Cbor) × Nat} (encoded : EncodesEntries text entries body)
    (piece : Piece bytes body i j) (distinct : (out.map Prod.fst).Nodup) :
    decodeEntries read entries.length i out = .ok r ↔
      ((out ++ entries).map Prod.fst).Nodup ∧ (∀ e ∈ entries, fits e.1.toCbor ∧ fits e.2) ∧
        r = (out ++ entries, j) := by
  induction entries generalizing i out body with
  | nil =>
      cases encoded
      have stop := piece.stop
      simp only [List.length_nil, Nat.add_zero] at stop
      subst stop
      rw [List.append_nil]
      simp [decodeEntries, distinct, eq_comm]
  | cons e rest ih =>
      cases encoded with
      | @cons k v _ kb vb more keyed first later =>
          obtain ⟨keyHere, others⟩ := piece_append.mp piece
          obtain ⟨here, next⟩ := piece_append.mp others
          rw [List.length_cons, decodeEntries, List.forall_mem_cons]
          by_cases keyFits : fits k.toCbor
          · rw [(decodes _ kb i _ _ keyed keyHere).mpr ⟨keyFits, rfl⟩]
            simp only [bind, Except.bind, key?_toCbor]
            split
            · rename_i twice
              obtain ⟨old, member, same⟩ := List.any_eq_true.mp twice
              have repeated : ¬ ((out ++ (k, v) :: rest).map Prod.fst).Nodup := by
                rw [List.map_append, List.nodup_append]
                rintro ⟨-, -, apart⟩
                exact apart old.1 (List.mem_map_of_mem member) k List.mem_cons_self (of_decide_eq_true same)
              simp only [repeated, false_and, iff_false]
              intro failed
              cases failed
            · rename_i fresh
              have longer : ((out ++ [(k, v)]).map Prod.fst).Nodup := by
                rw [List.map_append, List.nodup_append]
                refine ⟨distinct, by simp, ?_⟩
                rintro a member b isB rfl
                obtain ⟨old, isOld, rfl⟩ := List.mem_map.mp member
                exact fresh (List.any_eq_true.mpr ⟨old, isOld, by simpa using isB⟩)
              by_cases its : fits v
              · rw [(decodes v vb _ _ _ first here).mpr ⟨its, rfl⟩]
                simp only
                rw [ih later next longer]
                simp [its, keyFits]
              · obtain ⟨e, failed⟩ := decodes.error first here its
                rw [failed]
                simp [its]
          · obtain ⟨e, failed⟩ := decodes.error keyed keyHere keyFits
            rw [failed]
            simp [bind, Except.bind, keyFits]

/-- A head that stands at a place is read. -/
theorem decodeItem_head {levels major info arg start i : Nat} {rest : Bytes} (majors : major < 8)
    (its : IsArgument info arg rest) (piece : Piece bytes (initial major info :: rest) start i) :
    decodeItem text bytes (levels + 1) start =
      content text (decodeItem text bytes levels) bytes major info arg i := by
  obtain ⟨first, second⟩ := piece_append.mp (show Piece bytes ([initial major info] ++ rest) start i from piece)
  have here : bytes[start]? = some (initial major info) := first.getElem? (by simp : 0 < 1)
  obtain ⟨isMajor, isInfo⟩ := initial_parts majors its.lt.1
  have read : argument bytes info (start + 1) = .ok (arg, i) :=
    (argument_iff second.start_le).mpr ⟨rest, its, second⟩
  rw [decodeItem, here]
  simp only [isMajor, isInfo, read, bind, Except.bind]

theorem need_of_piece {b : Bytes} {i j : Nat} (piece : Piece bytes b i j) : need bytes i b.length = .ok () := by
  have stop := piece.stop
  have within := piece.within
  exact need_eq_ok.mpr (by omega)

/-- Where the bytes encode an item, it is decoded exactly when it fits the levels, and nothing else is. -/
theorem decodeItem_encoded (levels : Nat) :
    DecodesEncoded text bytes (decodeItem text bytes levels) (Fits levels) := by
  induction levels with
  | zero =>
      intro v b start stop r _ _
      simp [decodeItem, Fits]
  | succ levels ih =>
      intro v b start stop r encoded piece
      cases encoded with
      | int head =>
          obtain ⟨info, rest, its, rfl⟩ := head
          rw [decodeItem_head (by decide) its piece]
          simp [content, Fits, eq_comm]
      | negative head =>
          obtain ⟨info, rest, its, rfl⟩ := head
          rw [decodeItem_head (by decide) its piece]
          simp [content, Fits, eq_comm]
      | bytes head =>
          obtain ⟨first, body⟩ := piece_append.mp piece
          obtain ⟨info, rest, its, rfl⟩ := head
          rw [decodeItem_head (by decide) its first, body.stop]
          simp only [content, need_of_piece body, bind, Except.bind, body.take_eq]
          simp [Fits, pure, Except.pure, eq_comm]
      | text head given =>
          obtain ⟨first, body⟩ := piece_append.mp piece
          obtain ⟨info, rest, its, rfl⟩ := head
          rw [decodeItem_head (by decide) its first, body.stop]
          simp only [content, need_of_piece body, bind, Except.bind, body.take_eq, given]
          simp [Fits, pure, Except.pure, eq_comm]
      | @array items h body head inner =>
          obtain ⟨first, second⟩ := piece_append.mp piece
          obtain ⟨info, rest, its, rfl⟩ := head
          rw [decodeItem_head (by decide) its first]
          have decoded := fun r => @decodeItems_encoded text bytes _ _ ih items [] body _ _ r inner second
          simp only [content, bind, Except.bind, Fits]
          cases got : decodeItems (decodeItem text bytes levels) items.length (start + (initial 4 info :: rest).length)
              [] with
          | error e =>
              have unfit : ¬ ∀ v ∈ items, Fits levels v := by
                intro all
                have ok := (decoded _).mpr ⟨all, rfl⟩
                rw [got] at ok
                cases ok
              simp [unfit]
          | ok pair =>
              obtain ⟨all, rfl⟩ := (decoded pair).mp got
              simp only [List.nil_append, pure, Except.pure, Except.ok.injEq]
              exact ⟨fun eq => ⟨all, eq.symm⟩, fun both => both.2.symm⟩
      | @map entries h body head inner =>
          obtain ⟨first, second⟩ := piece_append.mp piece
          obtain ⟨info, rest, its, rfl⟩ := head
          rw [decodeItem_head (by decide) its first]
          have decoded := fun r => @decodeEntries_encoded text bytes _ _ ih entries [] body _ _ r inner second (by simp)
          simp only [content, bind, Except.bind, Fits]
          cases got : decodeEntries (decodeItem text bytes levels) entries.length
              (start + (initial 5 info :: rest).length) [] with
          | error e =>
              have unfit : ¬ ((entries.map Prod.fst).Nodup ∧
                  ∀ e ∈ entries, Fits levels e.1.toCbor ∧ Fits levels e.2) := by
                intro fits
                have ok := (decoded _).mpr ⟨fits.1, fits.2, rfl⟩
                rw [got] at ok
                cases ok
              simp only [unfit, false_and, iff_false]
              intro failed
              cases failed
          | ok pair =>
              obtain ⟨nodup, all, rfl⟩ := (decoded pair).mp got
              simp only [List.nil_append] at nodup
              simp only [List.nil_append, pure, Except.pure, Except.ok.injEq, nodup, true_and]
              exact ⟨fun eq => ⟨all, eq.symm⟩, fun both => both.2.symm⟩
      | «false» =>
          rw [decodeItem_head (by decide) (.direct (by decide)) piece]
          simp [content, Fits, eq_comm]
      | «true» =>
          rw [decodeItem_head (by decide) (.direct (by decide)) piece]
          simp [content, Fits, eq_comm]
      | null =>
          rw [decodeItem_head (by decide) (.direct (by decide)) piece]
          simp [content, Fits, eq_comm]

/-- Exactly the items that stand there and fit are decoded. -/
theorem decodeItem_iff {levels start stop : Nat} {v : Cbor} :
    decodeItem text bytes levels start = .ok (v, stop) ↔
      ∃ b, Encodes text v b ∧ Piece bytes b start stop ∧ Fits levels v := by
  constructor
  · exact decodeItem_sound levels start v stop
  · rintro ⟨b, encoded, piece, fits⟩
    exact (decodeItem_encoded levels v b start stop _ encoded piece).mpr ⟨fits, rfl⟩

end Encoded

end OmarchyPool.Webauthn
