/-
# OmarchyPool.Webauthn.CborRoundTrip -- a CBOR value, encoded and decoded

The shortest encoding of a value decodes to that value wherever it stands, and what is decoded is encoded by the
bytes it was decoded from, but for one thing: the platform's decoder drops the byte order mark in front of a
text.  Both hold exactly of values and bytes without such a text (`cbor_round_trip_iff`).

What another decoder of texts makes of some bytes is what the texts become (`encodes_map_iff`), so dropping the
mark is one function on values.
-/
import Mathlib.Data.List.Nodup
import OmarchyPool.Webauthn.CborExact

namespace OmarchyPool.Webauthn

open Lib BigEndian Manifest

set_option autoImplicit false

/-! ## Values -/

def Key.mapText (f : Text → Text) : Key → Key
  | .int n => .int n
  | .text s => .text (f s)

mutual

/-- Every text in a value, keys too, replaced. -/
def Cbor.mapText (f : Text → Text) : Cbor → Cbor
  | .int n => .int n
  | .bytes b => .bytes b
  | .text s => .text (f s)
  | .array items => .array (mapItems f items)
  | .map entries => .map (mapEntries f entries)
  | .bool b => .bool b
  | .null => .null

def Cbor.mapItems (f : Text → Text) : List Cbor → List Cbor
  | [] => []
  | v :: rest => v.mapText f :: mapItems f rest

def Cbor.mapEntries (f : Text → Text) : List (Key × Cbor) → List (Key × Cbor)
  | [] => []
  | (k, v) :: rest => (k.mapText f, v.mapText f) :: mapEntries f rest

end

/-- A text string in a value. -/
inductive HasText (s : Text) : Cbor → Prop
  | text : HasText s (.text s)
  | item {items : List Cbor} {v : Cbor} : v ∈ items → HasText s v → HasText s (.array items)
  | key {entries : List (Key × Cbor)} {e : Key × Cbor} : e ∈ entries → HasText s e.1.toCbor → HasText s (.map entries)
  | value {entries : List (Key × Cbor)} {e : Key × Cbor} : e ∈ entries → HasText s e.2 → HasText s (.map entries)

/-- No text string in it begins with a byte order mark. -/
def Unmarked (v : Cbor) : Prop := ∀ s, HasText s v → s.head? ≠ some mark

/-! ## The shortest encoding -/

def head (major arg : Nat) : Bytes :=
  if arg < 24 then [initial major arg]
  else if arg < 2 ^ 8 then initial major 24 :: fixed 1 arg
  else if arg < 2 ^ 16 then initial major 25 :: fixed 2 arg
  else if arg < 2 ^ 32 then initial major 26 :: fixed 4 arg
  else initial major 27 :: fixed 8 arg

def encodeInt (n : Int) : Bytes := if 0 ≤ n then head 0 n.toNat else head 1 (-1 - n).toNat

def encodeText (s : Text) : Bytes := head 3 (Utf8.encode s).length ++ Utf8.encode s

def Key.encode : Key → Bytes
  | .int n => encodeInt n
  | .text s => encodeText s

mutual

def Cbor.encode : Cbor → Bytes
  | .int n => encodeInt n
  | .bytes b => head 2 b.length ++ b
  | .text s => encodeText s
  | .array items => head 4 items.length ++ encodeItems items
  | .map entries => head 5 entries.length ++ encodeEntries entries
  | .bool false => [initial 7 20]
  | .bool true => [initial 7 21]
  | .null => [initial 7 22]

def Cbor.encodeItems : List Cbor → Bytes
  | [] => []
  | v :: rest => v.encode ++ encodeItems rest

def Cbor.encodeEntries : List (Key × Cbor) → Bytes
  | [] => []
  | (k, v) :: rest => k.encode ++ (v.encode ++ encodeEntries rest)

end

/-- The pool's values within so many levels, the value's own among them: integers from -2^53 to 2^53 - 1, and
keys that are distinct.  No length the runtime has comes to 2^53. -/
def Carried : Nat → Cbor → Prop
  | 0, _ => False
  | _ + 1, .int n => -2 ^ 53 ≤ n ∧ n < 2 ^ 53
  | _ + 1, .bytes b => b.length < 2 ^ 53
  | _ + 1, .text s => (Utf8.encode s).length < 2 ^ 53
  | levels + 1, .array items => items.length < 2 ^ 53 ∧ ∀ v ∈ items, Carried levels v
  | levels + 1, .map entries =>
      entries.length < 2 ^ 53 ∧ (entries.map Prod.fst).Nodup ∧
        ∀ e ∈ entries, Carried levels e.1.toCbor ∧ Carried levels e.2
  | _ + 1, .bool _ => True
  | _ + 1, .null => True

/-! ## Heads -/

theorem isHead_head {major arg : Nat} (small : arg < 2 ^ 53) : IsHead major arg (head major arg) := by
  unfold head
  split
  · rename_i direct
    exact ⟨arg, [], .direct direct, rfl⟩
  · split
    · rename_i one
      exact ⟨24, _, .one one, rfl⟩
    · split
      · rename_i two
        exact ⟨25, _, .two two, rfl⟩
      · split
        · rename_i four
          exact ⟨26, _, .four four, rfl⟩
        · exact ⟨27, _, .eight small, rfl⟩

theorem IsHead.ne_nil {major arg : Nat} {h : Bytes} (its : IsHead major arg h) : h ≠ [] := by
  obtain ⟨info, rest, -, rfl⟩ := its
  exact List.cons_ne_nil _ _

theorem Encodes.ne_nil {text : Bytes → Option Text} {v : Cbor} {b : Bytes} (its : Encodes text v b) : b ≠ [] := by
  cases its with
  | int head => exact head.ne_nil
  | negative head => exact head.ne_nil
  | bytes head => exact List.append_ne_nil_of_left_ne_nil head.ne_nil _
  | text head _ => exact List.append_ne_nil_of_left_ne_nil head.ne_nil _
  | array head _ => exact List.append_ne_nil_of_left_ne_nil head.ne_nil _
  | map head _ => exact List.append_ne_nil_of_left_ne_nil head.ne_nil _
  | «false» => exact List.cons_ne_nil _ _
  | «true» => exact List.cons_ne_nil _ _
  | null => exact List.cons_ne_nil _ _

/-! ## Texts replaced -/

section MapText

variable {f : Text → Text} {v w : Cbor}

theorem map_eq_self {α : Type} {g : α → α} {l : List α} : l.map g = l ↔ ∀ a ∈ l, g a = a := by
  have same := @List.map_inj_left α α l g id
  rwa [List.map_id] at same

theorem mapItems_eq (f : Text → Text) (items : List Cbor) : Cbor.mapItems f items = items.map (Cbor.mapText f) := by
  induction items with
  | nil => rfl
  | cons v rest ih => rw [Cbor.mapItems, ih, List.map_cons]

theorem mapEntries_eq (f : Text → Text) (entries : List (Key × Cbor)) :
    Cbor.mapEntries f entries = entries.map fun e => (e.1.mapText f, e.2.mapText f) := by
  induction entries with
  | nil => rfl
  | cons e rest ih => rw [Cbor.mapEntries, ih, List.map_cons]

theorem toCbor_mapText (k : Key) : k.toCbor.mapText f = (k.mapText f).toCbor := by
  cases k with
  | int n => rfl
  | text s => rfl

/-- A key's replaced text is a key's. -/
theorem mapText_eq_toCbor {k : Key} (eq : k.toCbor = w.mapText f) : ∃ k', w = Key.toCbor k' ∧ k = k'.mapText f := by
  cases w with
  | int n =>
      refine ⟨.int n, rfl, ?_⟩
      have same := congrArg Cbor.key? eq
      rw [key?_toCbor] at same
      exact Option.some.inj same
  | text s =>
      refine ⟨.text s, rfl, ?_⟩
      have same := congrArg Cbor.key? eq
      rw [key?_toCbor] at same
      exact Option.some.inj same
  | bytes b => cases k <;> cases eq
  | array items => cases k <;> cases eq
  | map entries => cases k <;> cases eq
  | bool b => cases k <;> cases eq
  | null => cases k <;> cases eq

/-- Replacing texts neither nests a value deeper nor makes two keys of one. -/
theorem fits_of_mapText {levels : Nat} (fits : Fits levels (w.mapText f)) : Fits levels w := by
  induction levels generalizing w with
  | zero => exact fits
  | succ levels ih =>
      cases w with
      | array items =>
          rw [Cbor.mapText, mapItems_eq, Fits] at fits
          intro v member
          exact ih (fits _ (List.mem_map_of_mem member))
      | map entries =>
          rw [Cbor.mapText, mapEntries_eq, Fits, List.map_map] at fits
          refine ⟨?_, ?_⟩
          · have keys : (Prod.fst ∘ fun e : Key × Cbor => (e.1.mapText f, e.2.mapText f)) = Key.mapText f ∘ Prod.fst := rfl
            rw [keys, ← List.map_map] at fits
            exact List.Nodup.of_map _ fits.1
          · intro e member
            have both := fits.2 _ (List.mem_map_of_mem member)
            rw [← toCbor_mapText] at both
            exact ⟨ih both.1, ih both.2⟩
      | int n => trivial
      | bytes b => trivial
      | text s => trivial
      | bool b => trivial
      | null => trivial

/-- A value stays as it is exactly when its texts do. -/
theorem mapText_eq_self {levels : Nat} (fits : Fits levels v) : v.mapText f = v ↔ ∀ s, HasText s v → f s = s := by
  induction levels generalizing v with
  | zero => exact fits.elim
  | succ levels ih =>
      cases v with
      | text s =>
          rw [Cbor.mapText, Cbor.text.injEq]
          constructor
          · intro same s' its
            cases its
            exact same
          · intro all
            exact all s .text
      | array items =>
          rw [Cbor.mapText, mapItems_eq, Cbor.array.injEq, map_eq_self]
          constructor
          · intro same s its
            cases its with
            | item member inner => exact (ih (fits _ member)).mp (same _ member) s inner
          · intro all v member
            exact (ih (fits v member)).mpr fun s inner => all s (.item member inner)
      | map entries =>
          rw [Cbor.mapText, mapEntries_eq, Cbor.map.injEq, map_eq_self]
          constructor
          · intro same s its
            cases its with
            | @key _ e member inner =>
                have key := congrArg (Key.toCbor ∘ Prod.fst) (same e member)
                exact (ih (fits.2 e member).1).mp ((toCbor_mapText e.1).trans key) s inner
            | @value _ e member inner =>
                exact (ih (fits.2 e member).2).mp (congrArg Prod.snd (same e member)) s inner
          · intro all e member
            have key := (ih (fits.2 e member).1).mpr fun s inner => all s (.key member inner)
            have value := (ih (fits.2 e member).2).mpr fun s inner => all s (.value member inner)
            have keyed := congrArg Cbor.key? key
            rw [toCbor_mapText, key?_toCbor, key?_toCbor, Option.some.injEq] at keyed
            rw [keyed, value]
      | int n =>
          refine ⟨fun _ s its => ?_, fun _ => rfl⟩
          cases its
      | bytes b =>
          refine ⟨fun _ s its => ?_, fun _ => rfl⟩
          cases its
      | bool b =>
          refine ⟨fun _ s its => ?_, fun _ => rfl⟩
          cases its
      | null =>
          refine ⟨fun _ s its => ?_, fun _ => rfl⟩
          cases its

end MapText

/-! ## Another decoder of texts -/

section Decoders

variable {f : Text → Text} {decode : Bytes → Option Text} {v w : Cbor} {b : Bytes}

/-- What replaces the texts of what `decode` decodes. -/
abbrev replacing (f : Text → Text) (decode : Bytes → Option Text) : Bytes → Option Text := fun b => (decode b).map f

theorem encodesItems_map {n : Nat} {items : List Cbor} {body : Bytes}
    (each : ∀ w b, b.length ≤ n → Encodes decode w b → Encodes (replacing f decode) (w.mapText f) b)
    (short : body.length ≤ n) (encoded : EncodesItems decode items body) :
    EncodesItems (replacing f decode) (items.map (Cbor.mapText f)) body := by
  induction items generalizing body with
  | nil =>
      cases encoded
      exact .nil
  | cons w rest ih =>
      cases encoded with
      | cons first later =>
          rw [List.length_append] at short
          exact .cons (each _ _ (by omega) first) (ih (by omega) later)

theorem encodesEntries_map {n : Nat} {entries : List (Key × Cbor)} {body : Bytes}
    (each : ∀ w b, b.length ≤ n → Encodes decode w b → Encodes (replacing f decode) (w.mapText f) b)
    (short : body.length ≤ n) (encoded : EncodesEntries decode entries body) :
    EncodesEntries (replacing f decode) (entries.map fun e => (e.1.mapText f, e.2.mapText f)) body := by
  induction entries generalizing body with
  | nil =>
      cases encoded
      exact .nil
  | cons e rest ih =>
      cases encoded with
      | cons keyed first later =>
          rw [List.length_append, List.length_append] at short
          have key := each _ _ (by omega) keyed
          rw [toCbor_mapText] at key
          exact .cons key (each _ _ (by omega) first) (ih (by omega) later)

/-- What encodes a value encodes the value with its texts replaced, for a decoder that replaces them. -/
theorem encodes_map (n : Nat) : ∀ w b, b.length ≤ n → Encodes decode w b →
    Encodes (replacing f decode) (w.mapText f) b := by
  induction n with
  | zero =>
      intro w b short encoded
      exact absurd (List.length_eq_zero_iff.mp (Nat.le_zero.mp short)) encoded.ne_nil
  | succ n ih =>
      intro w b short encoded
      cases encoded with
      | int head => exact .int head
      | negative head => exact .negative head
      | bytes head => exact .bytes head
      | text head given => exact .text head (by rw [replacing, given]; rfl)
      | array head inner =>
          have pos := List.length_pos_iff.mpr head.ne_nil
          rw [List.length_append] at short
          rw [Cbor.mapText, mapItems_eq]
          refine .array ?_ (encodesItems_map ih (by omega) inner)
          rwa [List.length_map]
      | map head inner =>
          have pos := List.length_pos_iff.mpr head.ne_nil
          rw [List.length_append] at short
          rw [Cbor.mapText, mapEntries_eq]
          refine .map ?_ (encodesEntries_map ih (by omega) inner)
          rwa [List.length_map]
      | «false» => exact .false
      | «true» => exact .true
      | null => exact .null

theorem encodesItems_of_map {n : Nat} {items : List Cbor} {body : Bytes}
    (each : ∀ v b, b.length ≤ n → Encodes (replacing f decode) v b → ∃ w, Encodes decode w b ∧ v = w.mapText f)
    (short : body.length ≤ n) (encoded : EncodesItems (replacing f decode) items body) :
    ∃ items', EncodesItems decode items' body ∧ items = items'.map (Cbor.mapText f) := by
  induction items generalizing body with
  | nil =>
      cases encoded
      exact ⟨[], .nil, rfl⟩
  | cons v rest ih =>
      cases encoded with
      | cons first later =>
          rw [List.length_append] at short
          obtain ⟨w, inner, rfl⟩ := each _ _ (by omega) first
          obtain ⟨items', more, rfl⟩ := ih (by omega) later
          exact ⟨w :: items', .cons inner more, rfl⟩

theorem encodesEntries_of_map {n : Nat} {entries : List (Key × Cbor)} {body : Bytes}
    (each : ∀ v b, b.length ≤ n → Encodes (replacing f decode) v b → ∃ w, Encodes decode w b ∧ v = w.mapText f)
    (short : body.length ≤ n) (encoded : EncodesEntries (replacing f decode) entries body) :
    ∃ entries', EncodesEntries decode entries' body ∧
      entries = entries'.map fun e => (e.1.mapText f, e.2.mapText f) := by
  induction entries generalizing body with
  | nil =>
      cases encoded
      exact ⟨[], .nil, rfl⟩
  | cons e rest ih =>
      cases encoded with
      | cons keyed first later =>
          rw [List.length_append, List.length_append] at short
          obtain ⟨kw, key, same⟩ := each _ _ (by omega) keyed
          obtain ⟨k', rfl, rfl⟩ := mapText_eq_toCbor same
          obtain ⟨w, inner, rfl⟩ := each _ _ (by omega) first
          obtain ⟨entries', more, rfl⟩ := ih (by omega) later
          exact ⟨(k', w) :: entries', .cons key inner more, rfl⟩

theorem encodes_of_map (n : Nat) : ∀ v b, b.length ≤ n → Encodes (replacing f decode) v b →
    ∃ w, Encodes decode w b ∧ v = w.mapText f := by
  induction n with
  | zero =>
      intro v b short encoded
      exact absurd (List.length_eq_zero_iff.mp (Nat.le_zero.mp short)) encoded.ne_nil
  | succ n ih =>
      intro v b short encoded
      cases encoded with
      | int head => exact ⟨_, .int head, rfl⟩
      | negative head => exact ⟨_, .negative head, rfl⟩
      | bytes head => exact ⟨_, .bytes head, rfl⟩
      | text head given =>
          obtain ⟨s, decoded, rfl⟩ := Option.map_eq_some_iff.mp given
          exact ⟨_, .text head decoded, rfl⟩
      | array head inner =>
          have pos := List.length_pos_iff.mpr head.ne_nil
          rw [List.length_append] at short
          obtain ⟨items', more, rfl⟩ := encodesItems_of_map ih (by omega) inner
          rw [List.length_map] at head
          exact ⟨_, .array head more, by rw [Cbor.mapText, mapItems_eq]⟩
      | map head inner =>
          have pos := List.length_pos_iff.mpr head.ne_nil
          rw [List.length_append] at short
          obtain ⟨entries', more, rfl⟩ := encodesEntries_of_map ih (by omega) inner
          rw [List.length_map] at head
          exact ⟨_, .map head more, by rw [Cbor.mapText, mapEntries_eq]⟩
      | «false» => exact ⟨_, .false, rfl⟩
      | «true» => exact ⟨_, .true, rfl⟩
      | null => exact ⟨_, .null, rfl⟩

/-- The values of the one decoder are the values of the other with their texts replaced. -/
theorem encodes_map_iff : Encodes (replacing f decode) v b ↔ ∃ w, Encodes decode w b ∧ v = w.mapText f := by
  constructor
  · exact encodes_of_map b.length v b le_rfl
  · rintro ⟨w, encoded, rfl⟩
    exact encodes_map b.length w b le_rfl encoded

end Decoders

/-! ## The encoding encodes -/

theorem encode_toCbor (k : Key) : k.toCbor.encode = k.encode := by
  cases k with
  | int n => rfl
  | text s => rfl

theorem encodesItems_encode {items : List Cbor} (each : ∀ v ∈ items, Encodes Utf8.decode v v.encode) :
    EncodesItems Utf8.decode items (Cbor.encodeItems items) := by
  induction items with
  | nil => exact .nil
  | cons v rest ih =>
      rw [List.forall_mem_cons] at each
      exact .cons each.1 (ih each.2)

theorem encodesEntries_encode {entries : List (Key × Cbor)}
    (each : ∀ e ∈ entries, Encodes Utf8.decode e.1.toCbor e.1.toCbor.encode ∧ Encodes Utf8.decode e.2 e.2.encode) :
    EncodesEntries Utf8.decode entries (Cbor.encodeEntries entries) := by
  induction entries with
  | nil => exact .nil
  | cons e rest ih =>
      rw [List.forall_mem_cons] at each
      have key := each.1.1
      rw [encode_toCbor] at key
      exact .cons key each.1.2 (ih each.2)

theorem encodes_encode {levels : Nat} {v : Cbor} (its : Carried levels v) : Encodes Utf8.decode v v.encode := by
  induction levels generalizing v with
  | zero => exact its.elim
  | succ levels ih =>
      cases v with
      | int n =>
          obtain ⟨least, most⟩ := its
          rw [Cbor.encode, encodeInt]
          by_cases natural : 0 ≤ n
          · rw [if_pos natural]
            have encoded : Encodes Utf8.decode (.int (n.toNat : Int)) (head 0 n.toNat) := .int (isHead_head (by omega))
            rwa [Int.toNat_of_nonneg natural] at encoded
          · rw [if_neg natural]
            have encoded : Encodes Utf8.decode (.int (-1 - ((-1 - n).toNat : Int))) (head 1 (-1 - n).toNat) :=
              .negative (isHead_head (by omega))
            have same : -1 - ((-1 - n).toNat : Int) = n := by omega
            rwa [same] at encoded
      | bytes b => exact .bytes (isHead_head its)
      | text s => exact .text (isHead_head its) (Utf8.decode_encode s)
      | array items =>
          exact .array (isHead_head its.1) (encodesItems_encode fun v member => ih (its.2 v member))
      | map entries =>
          exact .map (isHead_head its.1)
            (encodesEntries_encode fun e member => ⟨ih (its.2.2 e member).1, ih (its.2.2 e member).2⟩)
      | bool b =>
          cases b with
          | «false» => exact .false
          | «true» => exact .true
      | null => exact .null

theorem fits_of_carried {levels : Nat} {v : Cbor} (its : Carried levels v) : Fits levels v := by
  induction levels generalizing v with
  | zero => exact its
  | succ levels ih =>
      cases v with
      | array items => exact fun v member => ih (its.2 v member)
      | map entries => exact ⟨its.2.1, fun e member => ⟨ih (its.2.2 e member).1, ih (its.2.2 e member).2⟩⟩
      | int n => trivial
      | bytes b => trivial
      | text s => trivial
      | bool b => trivial
      | null => trivial

/-! ## The two together -/

theorem dropMark_eq_self {s : Text} : dropMark s = s ↔ s.head? ≠ some mark := by
  cases s with
  | nil => simp [dropMark]
  | cons c rest =>
      by_cases is : c = mark
      · subst is
        rw [dropMark, if_pos rfl]
        simp
      · rw [dropMark, if_neg is]
        simp [is]

/-- Nothing is dropped exactly from a value without a mark in front of a text. -/
theorem dropped_eq_self {levels : Nat} {v : Cbor} (fits : Fits levels v) : v.mapText dropMark = v ↔ Unmarked v := by
  rw [mapText_eq_self fits]
  exact forall_congr' fun s => imp_congr_right fun _ => dropMark_eq_self

section RoundTrip

variable {bytes b : Bytes} {start stop : Nat} {v w : Cbor}

/-- Where the bytes encode an item, `decodeCbor` gives the item with the marks dropped. -/
theorem decodeCbor_encoded (encoded : Encodes Utf8.decode w b) (piece : Piece bytes b start stop) :
    decodeCbor bytes start = .ok (v, stop) ↔ Fits (maxDepth + 1) v ∧ v = w.mapText dropMark := by
  have dropped : Encodes (textDecoder false) (w.mapText dropMark) b := encodes_map_iff.mpr ⟨w, encoded, rfl⟩
  unfold decodeCbor
  rw [decodeItem_encoded (maxDepth + 1) _ b start stop _ dropped piece]
  simp only [Prod.mk.injEq, and_true]
  constructor
  · rintro ⟨fits, rfl⟩
    exact ⟨fits, rfl⟩
  · rintro ⟨fits, rfl⟩
    exact ⟨fits, rfl⟩

theorem decodeCbor_sound (decoded : decodeCbor bytes start = .ok (v, stop)) :
    ∃ w b, Encodes Utf8.decode w b ∧ Piece bytes b start stop ∧ v = w.mapText dropMark ∧ Fits (maxDepth + 1) v := by
  obtain ⟨b, dropped, piece, fits⟩ := decodeItem_iff.mp decoded
  obtain ⟨w, encoded, eq⟩ := encodes_map_iff.mp dropped
  exact ⟨w, b, encoded, piece, eq, fits⟩

/-- An item has one value. -/
theorem Encodes.unique (encoded : Encodes Utf8.decode v b) (other : Encodes Utf8.decode w b)
    (fits : Fits (maxDepth + 1) v) : v = w := by
  have piece : Piece b b 0 b.length := by simpa using piece_middle [] b []
  have decoded : decodeItem Utf8.decode b (maxDepth + 1) 0 = .ok (v, b.length) :=
    decodeItem_iff.mpr ⟨b, encoded, piece, fits⟩
  have same := ((decodeItem_encoded (maxDepth + 1) w b 0 b.length _ other piece).mp decoded).2
  exact (Prod.mk.inj same).1

/-- The value the bytes between encode is the value that was decoded exactly when no text in it is marked. -/
theorem encodes_decoded_iff (encoded : Encodes Utf8.decode w b) (piece : Piece bytes b start stop)
    (decoded : decodeCbor bytes start = .ok (v, stop)) : Encodes Utf8.decode v b ↔ Unmarked w := by
  obtain ⟨fits, eq⟩ := (decodeCbor_encoded encoded piece).mp decoded
  have fitsItem : Fits (maxDepth + 1) w := by
    rw [eq] at fits
    exact fits_of_mapText fits
  rw [← dropped_eq_self fitsItem, ← eq]
  constructor
  · intro same
    exact same.unique encoded fits
  · intro same
    rwa [same]

/-- A value's shortest encoding, wherever it stands, decodes to the value and ends where it ends exactly when
no text in it begins with a byte order mark; and what is decoded from any bytes is an item that stands there, of
that value exactly when the item's texts do not. -/
theorem cbor_round_trip_iff (v : Cbor) (p s : Bytes) (bytes : Bytes) (start stop : Nat) (read : Cbor) :
    (Carried (maxDepth + 1) v →
      (decodeCbor (p ++ (v.encode ++ s)) p.length = .ok (v, p.length + v.encode.length) ↔ Unmarked v)) ∧
    (decodeCbor bytes start = .ok (read, stop) →
      start < stop ∧ stop ≤ bytes.length ∧
        (∃ w, Encodes Utf8.decode w ((bytes.drop start).take (stop - start))) ∧
        ∀ w, Encodes Utf8.decode w ((bytes.drop start).take (stop - start)) →
          (Encodes Utf8.decode read ((bytes.drop start).take (stop - start)) ↔ Unmarked w)) := by
  constructor
  · intro its
    have fits := fits_of_carried its
    rw [decodeCbor_encoded (encodes_encode its) (piece_middle p v.encode s), ← dropped_eq_self fits]
    exact ⟨fun both => both.2.symm, fun same => ⟨fits, same.symm⟩⟩
  · intro decoded
    obtain ⟨w, b, encoded, piece, -, -⟩ := decodeCbor_sound decoded
    have pos := List.length_pos_iff.mpr encoded.ne_nil
    have length := piece.stop
    have between : (bytes.drop start).take (stop - start) = b := by
      rw [length, Nat.add_sub_cancel_left, piece.take_eq]
    rw [between]
    exact ⟨by omega, piece.within, ⟨w, encoded⟩, fun w' its => encodes_decoded_iff its piece decoded⟩

end RoundTrip

theorem cbor_round_trip_map :
    decodeCbor ([0xff] ++ ((Cbor.map [(.int (-7), .array [.int (-2 ^ 53), .null])]).encode ++ [0x00])) 1 =
      .ok (.map [(.int (-7), .array [.int (-2 ^ 53), .null])], 14) :=
  ((cbor_round_trip_iff (.map [(.int (-7), .array [.int (-2 ^ 53), .null])]) [0xff] [0x00] [] 0 0 .null).1
    (by simp [Carried, Key.toCbor, maxDepth])).mpr ((@dropped_eq_self 3 _ (by simp [Fits, Key.toCbor])).mp rfl)

/-- The text of a byte order mark decodes to no text. -/
theorem mark_dropped :
    Carried (maxDepth + 1) (.text [mark]) ∧ (Cbor.text [mark]).encode = [0x63, 0xef, 0xbb, 0xbf] ∧
      decodeCbor ([] ++ ((Cbor.text [mark]).encode ++ [])) 0 = .ok (.text [], 4) ∧
      ¬ Encodes Utf8.decode (.text []) (Cbor.text [mark]).encode := by
  have its : Carried (maxDepth + 1) (.text [mark]) := by
    show (Utf8.encode [mark]).length < 2 ^ 53
    decide
  have encoded := encodes_encode its
  have decoded : decodeCbor ([] ++ ((Cbor.text [mark]).encode ++ [])) 0 = .ok (.text [], 4) :=
    (decodeCbor_encoded encoded (piece_middle [] _ [])).mpr ⟨trivial, rfl⟩
  refine ⟨its, by decide, decoded, ?_⟩
  rw [encodes_decoded_iff encoded (piece_middle [] _ []) decoded]
  intro unmarked
  exact unmarked [mark] .text rfl

end OmarchyPool.Webauthn
