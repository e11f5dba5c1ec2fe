/-
# OmarchyPool.Egress.Address -- addresses, their texts, and what an address reaches

An IPv4 address is a word of 32 bits, an IPv6 one of 128.  Three IPv6 forms reach an IPv4 address: v4-mapped,
NAT64 and 6to4, whose low 80 bits are anything; `Reaches` says which address reaches which, and the code's
own reading of the octets finds exactly these (`embedded` lemmas in `Egress.Policy`).

The texts of addresses are read as the standard library reads them: an octet has at most three digits and no
leading zero, a group at most four, `::` stands for at least one group, and an IPv4 address may end an IPv6
one.
-/
import OmarchyPool.Lib.Decimal
import OmarchyPool.Lib.LeadingBits

namespace OmarchyPool.Egress

set_option autoImplicit false

abbrev Ipv4Addr := BitVec 32
abbrev Ipv6Addr := BitVec 128

inductive IpAddr where
  | v4 (ip : Ipv4Addr)
  | v6 (ip : Ipv6Addr)
deriving DecidableEq, Repr

/-- The bits an address of the family has. -/
def IpAddr.width : IpAddr → Nat
  | .v4 _ => 32
  | .v6 _ => 128

/-! ## The forms of an IPv4 address -/

def v4Mapped (a : Ipv4Addr) : Ipv6Addr := 0xffff#96 ++ a
def nat64 (a : Ipv4Addr) : Ipv6Addr := 0x64ff9b0000000000000000#96 ++ a
def sixToFour (a : Ipv4Addr) (low : BitVec 80) : Ipv6Addr := 0x2002#16 ++ (a ++ low : BitVec 112)

/-- The IPv4 address an address reaches: itself, or the one its form carries. -/
inductive Reaches : IpAddr → Ipv4Addr → Prop where
  | v4 (a : Ipv4Addr) : Reaches (.v4 a) a
  | v4Mapped (a : Ipv4Addr) : Reaches (.v6 (v4Mapped a)) a
  | nat64 (a : Ipv4Addr) : Reaches (.v6 (nat64 a)) a
  | sixToFour (a : Ipv4Addr) (low : BitVec 80) : Reaches (.v6 (sixToFour a low)) a

/-- The four octets from the one at `start` on, the first the most significant. -/
def octetsAt (ip : Ipv6Addr) (start : Nat) : Ipv4Addr := ip.extractLsb' (96 - 8 * start) 32

def toIpv4Mapped (ip : Ipv6Addr) : Option Ipv4Addr :=
  if ip.extractLsb' 32 96 = 0xffff#96 then some (octetsAt ip 12) else none

def IpAddr.toCanonical : IpAddr → IpAddr
  | .v4 a => .v4 a
  | .v6 ip => (toIpv4Mapped ip).elim (.v6 ip) .v4

/-! ## Texts -/

section Parser

abbrev Text := List Char

def readGivenChar (c : Char) : Text → Option Text
  | [] => none
  | d :: rest => if d = c then some rest else none

/-- `char::to_digit` for the radices 10 and 16. -/
def toDigit (radix : Nat) (c : Char) : Option Nat :=
  let digit :=
    if '0' ≤ c ∧ c ≤ '9' then some (c.toNat - '0'.toNat)
    else if 'a' ≤ c ∧ c ≤ 'f' then some (c.toNat - 'a'.toNat + 10)
    else if 'A' ≤ c ∧ c ≤ 'F' then some (c.toNat - 'A'.toNat + 10) else none
  digit.filter (· < radix)

def readNumber (radix maxDigits limit : Nat) (allowZeroLed : Bool) (s : Text) : Option (Nat × Text) :=
  let digits := s.takeWhile fun c => (toDigit radix c).isSome
  let number := Lib.value (fun c => (toDigit radix c).getD 0) radix digits
  if digits.length = 0 ∨ maxDigits < digits.length ∨ limit ≤ number then none
  else if !allowZeroLed && digits.head? == some '0' && 1 < digits.length then none
  else some (number, s.drop digits.length)

def readOctet (s : Text) : Option (Nat × Text) := readNumber 10 3 256 false s

def readIpv4Addr (s : Text) : Option (Ipv4Addr × Text) := do
  let (a, s) ← readOctet s
  let (b, s) ← readGivenChar '.' s >>= readOctet
  let (c, s) ← readGivenChar '.' s >>= readOctet
  let (d, s) ← readGivenChar '.' s >>= readOctet
  pure (BitVec.ofNat 32 (((a * 256 + b) * 256 + c) * 256 + d), s)

/-- Up to `left` groups, the first of them the `i`-th; whether an IPv4 address ended them, and what is left to read. -/
def readGroups : Nat → Nat → Text → List (BitVec 16) × Bool × Text
  | 0, _, s => ([], false, s)
  | left + 1, i, s =>
      let start := if 0 < i then readGivenChar ':' s else some s
      match (if 0 < left then start >>= readIpv4Addr else none) with
      | some (v4, rest) => ([v4.extractLsb' 16 16, v4.extractLsb' 0 16], true, rest)
      | none =>
          match start >>= readNumber 16 4 65536 true with
          | some (group, rest) =>
              let (groups, ipv4, rest) := readGroups left (i + 1) rest
              (BitVec.ofNat 16 group :: groups, ipv4, rest)
          | none => ([], false, s)

def ofGroups (groups : List (BitVec 16)) : Ipv6Addr :=
  groups.foldl (fun ip group => ip <<< 16 ||| group.setWidth 128) 0

def readIpv6Addr (s : Text) : Option (Ipv6Addr × Text) :=
  let (head, ipv4, s) := readGroups 8 0 s
  if head.length = 8 then some (ofGroups head, s)
  else if ipv4 then none
  else do
    let s ← readGivenChar ':' s >>= readGivenChar ':'
    let (tail, _, s) := readGroups (8 - (head.length + 1)) 0 s
    pure (ofGroups (head ++ List.replicate (8 - head.length - tail.length) 0 ++ tail), s)

def readIpAddr (s : Text) : Option (IpAddr × Text) :=
  match readIpv4Addr s with
  | some (ip, rest) => some (.v4 ip, rest)
  | none => (readIpv6Addr s).map fun read => (.v6 read.1, read.2)

/-- `str::parse::<IpAddr>`: the whole text. -/
def parseIpAddr (s : Text) : Option IpAddr :=
  (readIpAddr s).bind fun read => if read.2 = [] then some read.1 else none

example : parseIpAddr "::ffff:203.0.114.10".toList = some (.v6 (v4Mapped 0xcb00720a#32)) := by decide
example : parseIpAddr "2002:cb00:720a::1".toList = some (.v6 (sixToFour 0xcb00720a#32 1)) := by decide
example : parseIpAddr "010.0.0.1".toList = none := by decide

end Parser

/-! ## What the octets say -/

theorem octetsAt_append (high : BitVec 96) (a : Ipv4Addr) : octetsAt (high ++ a : BitVec 128) 12 = a :=
  BitVec.extractLsb'_append_eq_right

theorem high_append (high : BitVec 96) (a : Ipv4Addr) : (high ++ a : BitVec 128).extractLsb' 32 96 = high :=
  BitVec.extractLsb'_append_eq_left

/-- An address is its first twelve octets and the four after. -/
theorem eq_append (ip : Ipv6Addr) : ip = (ip.extractLsb' 32 96 ++ octetsAt ip 12 : BitVec 128) :=
  (@BitVec.extractLsb'_append_extractLsb' 96 32 ip).symm

theorem octetsAt_sixToFour (a : Ipv4Addr) (low : BitVec 80) : octetsAt (sixToFour a low) 2 = a :=
  (BitVec.extractLsb'_append_eq_of_add_le (by decide)).trans BitVec.extractLsb'_append_eq_left

/-- An address is its first two octets, the four after and the rest. -/
theorem eq_sixToFour {ip : Ipv6Addr} (high : ip.extractLsb' 112 16 = 0x2002#16) :
    ip = sixToFour (octetsAt ip 2) (ip.extractLsb' 0 80) := by
  have parts : ip = (ip.extractLsb' 112 16 ++ ip.extractLsb' 0 112 : BitVec 128) :=
    (@BitVec.extractLsb'_append_extractLsb' 16 112 ip).symm
  have rest : (octetsAt ip 2 ++ ip.extractLsb' 0 80 : BitVec 112) = ip.extractLsb' 0 112 :=
    BitVec.extractLsb'_append_extractLsb'_eq_extractLsb' rfl
  unfold sixToFour
  rw [rest, ← high]
  exact parts

theorem toIpv4Mapped_eq_some {ip : Ipv6Addr} {a : Ipv4Addr} : toIpv4Mapped ip = some a ↔ ip = v4Mapped a := by
  unfold toIpv4Mapped v4Mapped
  constructor
  · intro mapped
    split at mapped
    · rename_i high
      rw [Option.some.injEq] at mapped
      rw [eq_append ip, high, mapped]
    · cases mapped
  · rintro rfl
    rw [if_pos (high_append _ _), octetsAt_append]

theorem toCanonical_v4Mapped (a : Ipv4Addr) : (IpAddr.v6 (v4Mapped a)).toCanonical = .v4 a := by
  rw [IpAddr.toCanonical, toIpv4Mapped_eq_some.mpr rfl]
  rfl

/-- An address is canonical where it is no v4-mapped one. -/
theorem toCanonical_v6 {ip : Ipv6Addr} (other : toIpv4Mapped ip = none) : (IpAddr.v6 ip).toCanonical = .v6 ip := by
  rw [IpAddr.toCanonical, other]
  rfl

theorem toCanonical_toCanonical (ip : IpAddr) : ip.toCanonical.toCanonical = ip.toCanonical := by
  cases ip with
  | v4 a => rfl
  | v6 ip =>
      cases mapped : toIpv4Mapped ip with
      | none => rw [toCanonical_v6 mapped, toCanonical_v6 mapped]
      | some a =>
          rw [IpAddr.toCanonical, mapped]
          rfl

end OmarchyPool.Egress
