/-
# OmarchyPool.Webauthn.Cbor -- CBOR, decoded

The item that stands at a place in some bytes, and where it ends: integers below 2^53, byte and text strings,
arrays, maps whose keys are integers or texts, and the three simple values, with definite lengths.  The text of
a text string is the platform's to decode, so what decodes it is a parameter (`textDecoder`).

What is decoded is read off the bytes (`decodeItem_iff`): an item that the bytes at the place encode, nested no
deeper than the levels left and with no key twice; and the place where its bytes end.
-/
import OmarchyPool.Lib.BigEndian
import OmarchyPool.Lib.Utf8
import OmarchyPool.Manifest.Dependency
import OmarchyPool.Manifest.Vercmp

namespace OmarchyPool.Webauthn

open Lib BigEndian Manifest

set_option autoImplicit false

/-- What keys a map. -/
inductive Key where
  | int (n : Int)
  | text (s : Text)
deriving DecidableEq, Repr

inductive Cbor where
  | int (n : Int)
  | bytes (b : Bytes)
  | text (s : Text)
  | array (items : List Cbor)
  | map (entries : List (Key × Cbor))
  | bool (b : Bool)
  | null
deriving Repr

def Key.toCbor : Key → Cbor
  | .int n => .int n
  | .text s => .text s

/-- A number or a string. -/
def Cbor.key? : Cbor → Option Key
  | .int n => some (.int n)
  | .text s => some (.text s)
  | _ => none

inductive CborError where
  | nestedTooDeep | endedEarly | pastInteger | indefiniteLength | reservedHead | notUtf8 | neitherKey | keyTwice
  | tag | floatOrSimple | bytesAfter
deriving DecidableEq, Repr

/-- The words of `fail("cbor", …)`. -/
def CborError.message : CborError → String
  | .nestedTooDeep => "CBOR nested too deep"
  | .endedEarly => "CBOR ended early"
  | .pastInteger => "a CBOR integer past 2^53"
  | .indefiniteLength => "an indefinite-length CBOR item"
  | .reservedHead => "a reserved CBOR head"
  | .notUtf8 => "a CBOR text string that is not UTF-8"
  | .neitherKey => "a CBOR map key that is neither an integer nor a text string"
  | .keyTwice => "a CBOR map with a key twice"
  | .tag => "a CBOR tag"
  | .floatOrSimple => "a CBOR float or simple value"
  | .bytesAfter => "bytes after the CBOR item"

/-! ## `TextDecoder` -/

/-- The byte order mark, U+FEFF. -/
def mark : Char := '\ufeff'

def dropMark : Text → Text
  | c :: rest => if c = mark then rest else c :: rest
  | [] => []

/-- `new TextDecoder("utf-8", { fatal: true, ignoreBOM })`. -/
def textDecoder (ignoreBOM : Bool) (b : Bytes) : Option Text :=
  if ignoreBOM then Utf8.decode b else (Utf8.decode b).map dropMark

/-! ## `decodeCbor` -/

def maxDepth : Nat := 16

/-- `b << k`, a signed number of 32 bits. -/
def shl (b : UInt8) (k : Nat) : BitVec 32 := BitVec.ofNat 32 b.toNat <<< k

/-- `((b0 << 24) >>> 0) + ((b1 << 16) | (b2 << 8) | b3)`. -/
def word (b0 b1 b2 b3 : UInt8) : Int := ((shl b0 24).toNat : Int) + (shl b1 16 ||| shl b2 8 ||| shl b3 0).toInt

def need (bytes : Bytes) (i n : Nat) : Except CborError Unit :=
  if bytes.length < i + n then .error .endedEarly else .ok ()

/-- `arg`, and the place behind it. -/
def argument (bytes : Bytes) (info i : Nat) : Except CborError (Nat × Nat) :=
  let b (k : Nat) := bytes.getD (i + k) 0
  if info < 24 then .ok (info, i)
  else if info = 24 then do
    need bytes i 1
    return ((b 0).toNat, i + 1)
  else if info = 25 then do
    need bytes i 2
    return ((shl (b 0) 8 ||| shl (b 1) 0).toInt.toNat, i + 2)
  else if info = 26 then do
    need bytes i 4
    return ((word (b 0) (b 1) (b 2) (b 3)).toNat, i + 4)
  else if info = 27 then do
    need bytes i 8
    let hi := word (b 0) (b 1) (b 2) (b 3)
    let lo := word (b 4) (b 5) (b 6) (b 7)
    if 0x1fffff < hi then throw .pastInteger else return ((hi * 0x100000000 + lo).toNat, i + 8)
  else .error (if info = 31 then .indefiniteLength else .reservedHead)

section Loops

variable (read : Nat → Except CborError (Cbor × Nat))

/-- The loop over an array's items, `n` left. -/
def decodeItems : Nat → Nat → List Cbor → Except CborError (List Cbor × Nat)
  | 0, i, out => .ok (out, i)
  | n + 1, i, out => do
      let (value, i) ← read i
      decodeItems n i (out ++ [value])

/-- The loop over a map's entries, `n` left. -/
def decodeEntries : Nat → Nat → List (Key × Cbor) → Except CborError (List (Key × Cbor) × Nat)
  | 0, i, out => .ok (out, i)
  | n + 1, i, out => do
      let (k, i) ← read i
      match k.key? with
      | none => throw .neitherKey
      | some k =>
          if out.any (·.1 = k) then throw .keyTwice
          else
            let (v, i) ← read i
            decodeEntries n i (out ++ [(k, v)])

end Loops

/-- The switch on the major type, `read` decoding the items inside. -/
def content (text : Bytes → Option Text) (read : Nat → Except CborError (Cbor × Nat)) (bytes : Bytes)
    (major info arg i : Nat) : Except CborError (Cbor × Nat) :=
  match major with
  | 0 => .ok (.int arg, i)
  | 1 => .ok (.int (-1 - arg), i)
  | 2 => do
      need bytes i arg
      return (.bytes ((bytes.drop i).take arg), i + arg)
  | 3 => do
      need bytes i arg
      match text ((bytes.drop i).take arg) with
      | none => throw .notUtf8
      | some s => return (.text s, i + arg)
  | 4 => do
      let (items, i) ← decodeItems read arg i []
      return (.array items, i)
  | 5 => do
      let (entries, i) ← decodeEntries read arg i []
      return (.map entries, i)
  | 6 => .error .tag
  | _ =>
      if info = 20 then .ok (.bool false, i)
      else if info = 21 then .ok (.bool true, i)
      else if info = 22 then .ok (.null, i)
      else .error .floatOrSimple

/-- `decodeCbor` with the levels it may still go down: `depth > MAX_DEPTH` is none left. -/
def decodeItem (text : Bytes → Option Text) (bytes : Bytes) : Nat → Nat → Except CborError (Cbor × Nat)
  | 0, _ => .error .nestedTooDeep
  | levels + 1, start =>
      match bytes[start]? with
      | none => .error .endedEarly
      | some head => do
          let major := (head >>> 5).toNat
          let info := (head &&& 0x1f).toNat
          let (arg, i) ← argument bytes info (start + 1)
          content text (decodeItem text bytes levels) bytes major info arg i

def decodeCbor (bytes : Bytes) (start : Nat) : Except CborError (Cbor × Nat) :=
  decodeItem (textDecoder false) bytes (maxDepth + 1) start

def decodeCborAll (bytes : Bytes) : Except CborError Cbor := do
  let (value, stop) ← decodeCbor bytes 0
  if stop ≠ bytes.length then throw .bytesAfter else return value

/-! ## Encodings -/

/-- The octet of a major type and what its lower bits say. -/
def initial (major info : Nat) : UInt8 := UInt8.ofNat (32 * major + info)

/-- The lower bits and the octets behind them that write a number, in as many as they say. -/
inductive IsArgument : Nat → Nat → Bytes → Prop
  | direct {arg : Nat} : arg < 24 → IsArgument arg arg []
  | one {arg : Nat} : arg < 2 ^ 8 → IsArgument 24 arg (fixed 1 arg)
  | two {arg : Nat} : arg < 2 ^ 16 → IsArgument 25 arg (fixed 2 arg)
  | four {arg : Nat} : arg < 2 ^ 32 → IsArgument 26 arg (fixed 4 arg)
  | eight {arg : Nat} : arg < 2 ^ 53 → IsArgument 27 arg (fixed 8 arg)

/-- A head with a definite number, not past 2^53. -/
def IsHead (major arg : Nat) (h : Bytes) : Prop :=
  ∃ info rest, IsArgument info arg rest ∧ h = initial major info :: rest

section Encodes

variable (text : Bytes → Option Text)

mutual

/-- Bytes are a definite-length encoding of a value, `text` saying what the bytes of a text string are. -/
inductive Encodes : Cbor → Bytes → Prop
  | int {n : Nat} {h : Bytes} : IsHead 0 n h → Encodes (.int n) h
  | negative {n : Nat} {h : Bytes} : IsHead 1 n h → Encodes (.int (-1 - n)) h
  | bytes {b h : Bytes} : IsHead 2 b.length h → Encodes (.bytes b) (h ++ b)
  | text {s : Text} {b h : Bytes} : IsHead 3 b.length h → text b = some s → Encodes (.text s) (h ++ b)
  | array {items : List Cbor} {h body : Bytes} :
      IsHead 4 items.length h → EncodesItems items body → Encodes (.array items) (h ++ body)
  | map {entries : List (Key × Cbor)} {h body : Bytes} :
      IsHead 5 entries.length h → EncodesEntries entries body → Encodes (.map entries) (h ++ body)
  | false : Encodes (.bool false) [initial 7 20]
  | true : Encodes (.bool true) [initial 7 21]
  | null : Encodes .null [initial 7 22]

inductive EncodesItems : List Cbor → Bytes → Prop
  | nil : EncodesItems [] []
  | cons {v : Cbor} {rest : List Cbor} {b body : Bytes} :
      Encodes v b → EncodesItems rest body → EncodesItems (v :: rest) (b ++ body)

inductive EncodesEntries : List (Key × Cbor) → Bytes → Prop
  | nil : EncodesEntries [] []
  | cons {k : Key} {v : Cbor} {rest : List (Key × Cbor)} {kb vb body : Bytes} :
      Encodes k.toCbor kb → Encodes v vb → EncodesEntries rest body →
        EncodesEntries ((k, v) :: rest) (kb ++ (vb ++ body))

end

end Encodes

/-- Within so many levels, the value's own among them, and no key twice. -/
def Fits : Nat → Cbor → Prop
  | 0, _ => False
  | levels + 1, .array items => ∀ v ∈ items, Fits levels v
  | levels + 1, .map entries =>
      (entries.map Prod.fst).Nodup ∧ ∀ e ∈ entries, Fits levels e.1.toCbor ∧ Fits levels e.2
  | _ + 1, _ => True

end OmarchyPool.Webauthn
