/-
# OmarchyPool.Egress.Policy -- which destinations a task's proxy allows

A destination is judged by the addresses its name resolves to.  A range is an address and how many of its
leading bits count; `contains` compares them under a mask, which is `Covers` (`contains_iff`), and a
v4-mapped range is the IPv4 range it writes (`read_v4Mapped`).  `refused` judges an address by what it
reaches: it finds the IPv4 address a form carries (`embeddedV4_eq_some`) and holds it against the built-in
ranges and the ones denied.

The words of a refusal are kept as their parts.
-/
import OmarchyPool.Egress.Address

namespace OmarchyPool.Egress

open OmarchyPool.Lib

set_option autoImplicit false

/-! ## Ranges -/

structure Cidr where
  net : IpAddr
  prefixLen : Nat
  fits : prefixLen ≤ net.width
deriving DecidableEq, Repr

inductive CidrError where
  | notAddress (s : String)
  | prefixNot (s : String) (max : Nat)
deriving DecidableEq, Repr

/-- An IPv4 range in its v4-mapped form is the IPv4 range. -/
def Cidr.read : (net : IpAddr) → (p : Nat) → p ≤ net.width → Cidr
  | .v4 n, p, fits => ⟨.v4 n, p, fits⟩
  | .v6 n, p, fits =>
      match toIpv4Mapped n with
      | some a => if 96 ≤ p then ⟨.v4 a, p - 96, Nat.sub_le_sub_right fits 96⟩ else ⟨.v6 n, p, fits⟩
      | none => ⟨.v6 n, p, fits⟩

/-- `str::parse::<u8>`: digits, after a sign `+` or none. -/
def parseU8 (s : Text) : Option Nat :=
  let digits := match s with
    | '+' :: rest => rest
    | _ => s
  if digits ≠ [] ∧ digits.all (fun c => (toDigit 10 c).isSome) then
    readBelow (fun c => (toDigit 10 c).getD 0) 10 256 digits
  else none

/-- `s.split_once('/')`, and the whole with nothing after where there is none. -/
def splitPrefix (s : Text) : Text × Text :=
  (s.takeWhile (· ≠ '/'), (s.dropWhile (· ≠ '/')).drop 1)

def Cidr.fromStr (s : String) : Except CidrError Cidr :=
  match parseIpAddr (splitPrefix s.toList).1 with
  | none => .error (.notAddress s)
  | some net =>
      match (if (splitPrefix s.toList).2 = [] then some net.width else parseU8 (splitPrefix s.toList).2) with
      | none => .error (.prefixNot s net.width)
      | some p => if fits : p ≤ net.width then .ok (Cidr.read net p fits) else .error (.prefixNot s net.width)

def Cidr.contains (c : Cidr) (ip : IpAddr) : Bool :=
  match c.net, ip with
  | .v4 n, .v4 a => n &&& leadingMask 32 c.prefixLen == a &&& leadingMask 32 c.prefixLen
  | .v6 n, .v6 a => n &&& leadingMask 128 c.prefixLen == a &&& leadingMask 128 c.prefixLen
  | _, _ => false

/-! ## What is refused -/

/-- The IPv4 ranges no task reaches, whatever the host. -/
def refusedV4Ranges : List (String × String) := [
  ("0.0.0.0/8", "this network"),
  ("10.0.0.0/8", "a private address (RFC 1918)"),
  ("100.64.0.0/10", "a carrier-grade NAT address"),
  ("127.0.0.0/8", "loopback"),
  ("169.254.0.0/16", "link-local (cloud metadata)"),
  ("172.16.0.0/12", "a private address (RFC 1918)"),
  ("192.0.0.0/24", "an IETF protocol address"),
  ("192.0.2.0/24", "a documentation address"),
  ("192.168.0.0/16", "a private address (RFC 1918)"),
  ("198.18.0.0/15", "a benchmarking address"),
  ("198.51.100.0/24", "a documentation address"),
  ("203.0.113.0/24", "a documentation address"),
  ("224.0.0.0/4", "multicast"),
  ("240.0.0.0/4", "reserved (or broadcast)")]

/-- A built-in range holds the address; each is one (`builtIn_reads`). -/
def inBuiltIn (range : String) (ip : IpAddr) : Bool :=
  match Cidr.fromStr range with
  | .ok c => c.contains ip
  | .error _ => false

def refusedV4 (ip : Ipv4Addr) : Option String :=
  refusedV4Ranges.findSome? fun entry => if inBuiltIn entry.1 (.v4 ip) then some entry.2 else none

def inV6 (ip : Ipv6Addr) (range : String) : Bool := inBuiltIn range (.v6 ip)

/-- The IPv4 address an IPv6 one reaches: v4-mapped, NAT64 and 6to4. -/
def embeddedV4 (ip : Ipv6Addr) : Option Ipv4Addr :=
  match toIpv4Mapped ip with
  | some a => some a
  | none =>
      if inV6 ip "64:ff9b::/96" then some (octetsAt ip 12)
      else if inV6 ip "2002::/16" then some (octetsAt ip 2)
      else none

def isLoopback (ip : Ipv6Addr) : Bool := ip == 1
def isMulticast (ip : Ipv6Addr) : Bool := ip.extractLsb' 120 8 == 0xff

def refusedV6 (ip : Ipv6Addr) : Option String :=
  match embeddedV4 ip with
  | some a => refusedV4 a
  | none =>
      if isLoopback ip then some "loopback"
      else if isMulticast ip then some "multicast"
      else if inV6 ip "fe80::/10" then some "link-local"
      else if inV6 ip "fc00::/7" then some "a unique local address"
      else if inV6 ip "2001:db8::/32" then some "a documentation address"
      else if inV6 ip "2001::/32" then some "a Teredo address"
      else if !inV6 ip "2000::/3" then some "not a global unicast address"
      else none

/-- Why an address is refused, or nothing where it is a public one outside `deny`. -/
def refused (ip : IpAddr) (deny : List Cidr) : Option String :=
  let ip := ip.toCanonical
  let (builtin, v4) := match ip with
    | .v4 a => (refusedV4 a, none)
    | .v6 ip => (refusedV6 ip, embeddedV4 ip)
  match builtin with
  | some why => some why
  | none =>
      if (ip :: (v4.map IpAddr.v4).toList).any fun a => deny.any (·.contains a) then
        some "an address of this host or of its task networks"
      else none

/-! ## Destinations -/

structure SocketAddr where
  ip : IpAddr
  port : UInt16
deriving DecidableEq, Repr

/-- The words of a refusal. -/
inductive Refusal where
  | notHostName (host : Text)
  | portZero
  | unresolved (host : Text) (why : Option String)
  | refused (host : Text) (ip : IpAddr) (why : String)
deriving DecidableEq, Repr

def Refusal.status : Refusal → Nat
  | .notHostName _ => 400
  | .portZero => 400
  | .unresolved _ _ => 502
  | .refused _ _ _ => 403

/-- What the proxy allows: how it resolves a name and judges an address, and the ranges it refuses besides. -/
structure Policy where
  deny : List Cidr
  resolve : Text → UInt16 → Except String (List SocketAddr)
  judge : IpAddr → List Cidr → Option String

/-- The host of `[…]`, and any other as it is. -/
def unbracket (host : Text) : Text :=
  match host with
  | '[' :: rest => if rest.getLast? = some ']' then rest.dropLast else host
  | _ => host

-- a host that passes has one byte a character, so its length is the source's
def hostNamed (host : Text) : Bool :=
  host ≠ [] && host.length ≤ 253 &&
    host.all fun c => c.isAlphanum || c == '.' || c == '-' || c == ':' || c == '_'

/-- The addresses a host stands for: an address needs no resolver, a name is resolved once. -/
def Policy.answered (policy : Policy) (host : Text) (port : UInt16) : Except Refusal (List SocketAddr) :=
  match parseIpAddr host with
  | some ip => .ok [⟨ip, port⟩]
  | none =>
      match policy.resolve host port with
      | .ok addrs => .ok addrs
      | .error why => .error (.unresolved host (some why))

/-- The addresses to connect to for a host and a port, each of them judged. -/
def Policy.destination (policy : Policy) (host : Text) (port : UInt16) : Except Refusal (List SocketAddr) :=
  let host := unbracket host
  if !hostNamed host then .error (.notHostName host)
  else if port = 0 then .error .portZero
  else
    match policy.answered host port with
    | .error refusal => .error refusal
    | .ok answered =>
        let addrs := answered.map fun a => (⟨a.ip.toCanonical, a.port⟩ : SocketAddr)
        if addrs = [] then .error (.unresolved host none)
        else
          match addrs.findSome? fun a => (policy.judge a.ip policy.deny).map (Refusal.refused host a.ip) with
          | some refusal => .error refusal
          | none => .ok addrs

/-! ## What a range covers -/

/-- The address is of the range's family and starts with the bits of it that count. -/
def Cidr.Covers (c : Cidr) : IpAddr → Prop := fun ip =>
  match c.net, ip with
  | .v4 n, .v4 a => Agree c.prefixLen n a
  | .v6 n, .v6 a => Agree c.prefixLen n a
  | _, _ => False

theorem Cidr.contains_iff (c : Cidr) (ip : IpAddr) : c.contains ip = true ↔ c.Covers ip := by
  obtain ⟨net, p, fits⟩ := c
  cases net <;> cases ip <;> simp only [Cidr.contains, Cidr.Covers, beq_iff_eq, Bool.false_eq_true]
  · exact masked_eq_iff fits _ _
  · exact masked_eq_iff fits _ _

/-- A v4-mapped range holds the IPv4 addresses whose v4-mapped forms it is written to hold. -/
theorem read_v4Mapped (n a : Ipv4Addr) (p : Nat) (fits : 96 + p ≤ (IpAddr.v6 (v4Mapped n)).width) :
    (Cidr.read (.v6 (v4Mapped n)) (96 + p) fits).Covers (.v4 a) ↔ Agree (96 + p) (v4Mapped n) (v4Mapped a) := by
  have read : Cidr.read (.v6 (v4Mapped n)) (96 + p) fits = ⟨.v4 n, p, by simp only [IpAddr.width] at *; omega⟩ := by
    simp only [Cidr.read, toIpv4Mapped_eq_some.mpr rfl, Nat.le_add_right, if_true, Nat.add_sub_cancel_left]
  rw [read]
  exact (agree_append 0xffff#96 p n a).symm

/-- What a built-in text holds, once it is read. -/
theorem inBuiltIn_iff {range : String} {c : Cidr} (reads : Cidr.fromStr range = .ok c) (ip : IpAddr) :
    inBuiltIn range ip = true ↔ c.Covers ip := by
  rw [inBuiltIn, reads]
  exact c.contains_iff ip

/-- Every built-in range is one. -/
theorem builtIn_reads : ∀ entry ∈ refusedV4Ranges, ∃ c, Cidr.fromStr entry.1 = .ok c := by
  have reads : refusedV4Ranges.all (fun entry => (Cidr.fromStr entry.1).toOption.isSome) = true := by decide
  intro entry member
  have one := List.all_eq_true.mp reads entry member
  cases read : Cidr.fromStr entry.1 with
  | ok c => exact ⟨c, rfl⟩
  | error e => simp [read, Except.toOption] at one

theorem inV6_nat64 (ip : Ipv6Addr) :
    inV6 ip "64:ff9b::/96" = true ↔ ip.extractLsb' 32 96 = 0x64ff9b0000000000000000#96 := by
  have reads : Cidr.fromStr "64:ff9b::/96" = .ok ⟨.v6 (nat64 0), 96, by decide⟩ := by decide
  rw [inV6, inBuiltIn_iff reads]
  refine (agree_high (v := 96) (w := 32) (nat64 0) ip).trans ?_
  rw [nat64, BitVec.extractLsb'_append_eq_left]
  exact eq_comm

theorem inV6_sixToFour (ip : Ipv6Addr) : inV6 ip "2002::/16" = true ↔ ip.extractLsb' 112 16 = 0x2002#16 := by
  have reads : Cidr.fromStr "2002::/16" = .ok ⟨.v6 (sixToFour 0 0), 16, by decide⟩ := by decide
  rw [inV6, inBuiltIn_iff reads]
  refine (agree_high (v := 16) (w := 112) (sixToFour 0 0) ip).trans ?_
  rw [sixToFour, BitVec.extractLsb'_append_eq_left]
  exact eq_comm

theorem inV6_global (ip : Ipv6Addr) : inV6 ip "2000::/3" = true ↔ ip.extractLsb' 125 3 = 1#3 := by
  have reads : Cidr.fromStr "2000::/3" = .ok ⟨.v6 (1#3 ++ (0 : BitVec 125)), 3, by decide⟩ := by decide
  rw [inV6, inBuiltIn_iff reads]
  refine (agree_high (v := 3) (w := 125) (1#3 ++ (0 : BitVec 125)) ip).trans ?_
  rw [BitVec.extractLsb'_append_eq_left]
  exact eq_comm

/-! ## What an address reaches -/

/-- The first two octets are the first of the first twelve. -/
theorem high_high (ip : Ipv6Addr) : (ip.extractLsb' 32 96).extractLsb' 80 16 = ip.extractLsb' 112 16 := by
  apply BitVec.eq_of_getLsbD_eq
  intro i below
  simp [show 80 + i < 96 by omega, show 32 + (80 + i) = 112 + i by omega]

/-- The octets the code reads are the address a form carries, and nothing else carries one. -/
theorem embeddedV4_eq_some {ip : Ipv6Addr} {a : Ipv4Addr} : embeddedV4 ip = some a ↔ Reaches (.v6 ip) a := by
  constructor
  · intro embedded
    unfold embeddedV4 at embedded
    split at embedded
    · rename_i b mapped
      cases embedded
      rw [toIpv4Mapped_eq_some.mp mapped]
      exact .v4Mapped a
    · split at embedded
      · rename_i inside
        cases embedded
        have form := eq_append ip
        rw [(inV6_nat64 ip).mp inside] at form
        rw [form, octetsAt_append]
        exact .nat64 _
      · split at embedded
        · rename_i inside
          cases embedded
          have form := eq_sixToFour ((inV6_sixToFour ip).mp inside)
          rw [form, octetsAt_sixToFour]
          exact .sixToFour _ _
        · cases embedded
  · intro reaches
    cases reaches with
    | v4Mapped a => rw [embeddedV4, toIpv4Mapped_eq_some.mpr rfl]
    | nat64 a =>
        have high : (nat64 a).extractLsb' 32 96 = 0x64ff9b0000000000000000#96 := high_append _ a
        have unmapped : toIpv4Mapped (nat64 a) = none := by
          rw [toIpv4Mapped, high, if_neg (by decide)]
        rw [embeddedV4, unmapped]
        simp only [(inV6_nat64 _).mpr high, if_true]
        rw [nat64, octetsAt_append]
    | sixToFour a low =>
        have high : (sixToFour a low).extractLsb' 112 16 = 0x2002#16 := BitVec.extractLsb'_append_eq_left
        -- neither of the other two starts with these octets
        have other : ∀ start : BitVec 96, start.extractLsb' 80 16 ≠ 0x2002#16 →
            (sixToFour a low).extractLsb' 32 96 ≠ start := by
          rintro start apart rfl
          rw [high_high, high] at apart
          exact apart rfl
        have unmapped : toIpv4Mapped (sixToFour a low) = none := by
          rw [toIpv4Mapped, if_neg (other _ (by decide))]
        have outside : ¬inV6 (sixToFour a low) "64:ff9b::/96" = true := by
          rw [inV6_nat64]
          exact other _ (by decide)
        rw [embeddedV4, unmapped]
        dsimp only
        rw [if_neg outside, if_pos ((inV6_sixToFour _).mpr high), octetsAt_sixToFour]

theorem Reaches.unique {ip : IpAddr} {a b : Ipv4Addr} (one : Reaches ip a) (two : Reaches ip b) : a = b := by
  cases ip with
  | v4 c =>
      cases one
      cases two
      rfl
  | v6 ip =>
      have same := (embeddedV4_eq_some.mpr one).symm.trans (embeddedV4_eq_some.mpr two)
      exact Option.some.inj same

/-! ## What is not refused -/

theorem refusedV4_eq_none {a : Ipv4Addr} :
    refusedV4 a = none ↔ ∀ entry ∈ refusedV4Ranges, ∀ c, Cidr.fromStr entry.1 = .ok c → ¬c.Covers (.v4 a) := by
  rw [refusedV4, List.findSome?_eq_none_iff]
  constructor
  · intro none_ entry member c reads covers
    have here := none_ entry member
    rw [if_pos ((inBuiltIn_iff reads _).mpr covers)] at here
    cases here
  · intro uncovered entry member
    obtain ⟨c, reads⟩ := builtIn_reads entry member
    have outside : ¬inBuiltIn entry.1 (.v4 a) = true := by
      rw [inBuiltIn_iff reads]
      exact uncovered entry member c reads
    rw [if_neg outside]

/-- No range of the deny list covers the address. -/
def Undenied (deny : List Cidr) (ip : IpAddr) : Prop := ∀ c ∈ deny, ¬c.Covers ip

theorem any_contains {deny : List Cidr} {ip : IpAddr} :
    deny.any (·.contains ip) = false ↔ Undenied deny ip := by
  simp only [Undenied, List.any_eq_false, Cidr.contains_iff]

theorem refused_v4_eq_none {deny : List Cidr} {a : Ipv4Addr} :
    refused (.v4 a) deny = none ↔ refusedV4 a = none ∧ Undenied deny (.v4 a) := by
  rw [← any_contains]
  unfold refused
  simp only [IpAddr.toCanonical]
  cases refusedV4 a <;> simp

theorem refused_v6_eq_none {deny : List Cidr} {ip : Ipv6Addr} (canonical : toIpv4Mapped ip = none) :
    refused (.v6 ip) deny = none ↔ refusedV6 ip = none ∧ Undenied deny (.v6 ip) ∧
      ∀ a, embeddedV4 ip = some a → Undenied deny (.v4 a) := by
  unfold refused
  simp only [toCanonical_v6 canonical, ← any_contains]
  cases refusedV6 ip <;> cases embeddedV4 ip <;> simp

/-- **An address is judged by what it reaches**: one that is not refused reaches no refused IPv4 address. -/
theorem refused_reached {deny : List Cidr} {ip : IpAddr} {a : Ipv4Addr} (reaches : Reaches ip a)
    (passes : refused ip deny = none) : refused (.v4 a) deny = none := by
  cases ip with
  | v4 b =>
      cases reaches
      exact passes
  | v6 ip =>
      have embedded := embeddedV4_eq_some.mpr reaches
      cases mapped : toIpv4Mapped ip with
      | some b =>
          -- a v4-mapped address is judged as the IPv4 one
          have form := toIpv4Mapped_eq_some.mp mapped
          subst form
          have same : b = a := (Reaches.v4Mapped b).unique reaches
          subst same
          unfold refused at passes ⊢
          rw [toCanonical_v4Mapped] at passes
          exact passes
      | none =>
          obtain ⟨builtin, -, denied⟩ := (refused_v6_eq_none mapped).mp passes
          rw [refusedV6, embedded] at builtin
          exact refused_v4_eq_none.mpr ⟨builtin, denied a embedded⟩

/-- Outside the global unicast range only the forms of an IPv4 address pass. -/
theorem refused_outside {deny : List Cidr} {ip : Ipv6Addr} (outside : ip.extractLsb' 125 3 ≠ 1#3)
    (noForm : ∀ a, ¬Reaches (.v6 ip) a) : refused (.v6 ip) deny ≠ none := by
  have unembedded : embeddedV4 ip = none := by
    cases embedded : embeddedV4 ip with
    | none => rfl
    | some a => exact absurd (embeddedV4_eq_some.mp embedded) (noForm a)
  have unmapped : toIpv4Mapped ip = none := by
    cases mapped : toIpv4Mapped ip with
    | none => rfl
    | some a => exact absurd (toIpv4Mapped_eq_some.mp mapped ▸ .v4Mapped a) (noForm a)
  intro passes
  obtain ⟨builtin, -, -⟩ := (refused_v6_eq_none unmapped).mp passes
  have notGlobal : inV6 ip "2000::/3" = false := by
    rw [Bool.eq_false_iff, ne_eq, inV6_global]
    exact outside
  simp only [refusedV6, unembedded, notGlobal, Bool.not_false, if_true] at builtin
  repeat' split at builtin
  all_goals cases builtin

/-- A destination's addresses are canonical, and each was judged. -/
theorem destination_judged {policy : Policy} {host : Text} {port : UInt16} {addrs : List SocketAddr}
    (allowed : policy.destination host port = .ok addrs) :
    ∀ s ∈ addrs, s.ip.toCanonical = s.ip ∧ policy.judge s.ip policy.deny = none := by
  unfold Policy.destination at allowed
  dsimp only at allowed
  split at allowed
  · cases allowed
  split at allowed
  · cases allowed
  split at allowed
  · cases allowed
  rename_i answered _
  split at allowed
  · cases allowed
  split at allowed
  · cases allowed
  rename_i unrefused
  cases allowed
  intro s member
  constructor
  · obtain ⟨a, -, rfl⟩ := List.mem_map.mp member
    exact toCanonical_toCanonical a.ip
  · have judged := List.findSome?_eq_none_iff.mp unrefused s member
    exact Option.map_eq_none_iff.mp judged

/-- **The proxy judges an address by what it reaches.**  A form of an IPv4 address is refused where the address is;
outside the global unicast range only such forms pass; and every address a destination gives is canonical and not
refused, and in whichever form it is written the IPv4 address it reaches is in no built-in range and in no denied
one. -/
theorem egress_judges_reached (deny : List Cidr) :
    (∀ (ip : IpAddr) (a : Ipv4Addr), Reaches ip a → refused (.v4 a) deny ≠ none → refused ip deny ≠ none) ∧
    (∀ ip : Ipv6Addr, ip.extractLsb' 125 3 ≠ 1#3 → (∀ a, ¬Reaches (.v6 ip) a) → refused (.v6 ip) deny ≠ none) ∧
    ∀ (resolve : Text → UInt16 → Except String (List SocketAddr)) (host : Text) (port : UInt16)
      (addrs : List SocketAddr), Policy.destination ⟨deny, resolve, refused⟩ host port = .ok addrs →
        ∀ s ∈ addrs, s.ip.toCanonical = s.ip ∧ refused s.ip deny = none ∧
          ∀ (form : IpAddr) (a : Ipv4Addr), (form = s.ip ∨ ∃ b, s.ip = .v4 b ∧ Reaches form b) → Reaches form a →
            (∀ entry ∈ refusedV4Ranges, ∀ c, Cidr.fromStr entry.1 = .ok c → ¬c.Covers (.v4 a)) ∧
            ∀ c ∈ deny, ¬c.Covers (.v4 a) := by
  refine ⟨?_, ?_, ?_⟩
  · intro ip a reaches bad passes
    exact bad (refused_reached reaches passes)
  · intro ip outside noForm
    exact refused_outside outside noForm
  · intro resolve host port addrs allowed s member
    obtain ⟨canonical, passes⟩ := destination_judged allowed s member
    refine ⟨canonical, passes, fun form a written reaches => ?_⟩
    have ipReaches : Reaches s.ip a := by
      rcases written with rfl | ⟨b, isV4, formReaches⟩
      · exact reaches
      · rw [isV4, formReaches.unique reaches]
        exact .v4 a
    obtain ⟨builtin, denied⟩ := refused_v4_eq_none.mp (refused_reached ipReaches passes)
    exact ⟨refusedV4_eq_none.mp builtin, denied⟩

/-- The host's own address, denied in its v4-mapped form: its 6to4 form is refused, and a name that answers a
public address gives it in its canonical form. -/
theorem egress_judges_reached_host :
    ∃ c, Cidr.fromStr "::ffff:203.0.114.10" = .ok c ∧
      refused (.v6 (sixToFour 0xcb00720a#32 1)) [c] ≠ none ∧
      refused (.v6 (v4Mapped 0x7f000001#32)) [c] ≠ none ∧ refused (.v6 1) [c] ≠ none ∧
      Policy.destination ⟨[c], fun _ port => .ok [⟨.v6 (v4Mapped 0x01010101#32), port⟩], refused⟩ "one.example".toList 443 =
        .ok [⟨.v4 0x01010101#32, 443⟩] ∧
      ∀ c' ∈ [c], ¬c'.Covers (.v4 0x01010101#32) := by
  refine ⟨⟨.v4 0xcb00720a#32, 32, by decide⟩, by decide, ?_, ?_, ?_, ?_, ?_⟩
  · exact (egress_judges_reached _).1 _ _ (.sixToFour 0xcb00720a#32 1) (by decide)
  · exact (egress_judges_reached _).1 _ _ (.v4Mapped 0x7f000001#32) (by decide)
  · refine (egress_judges_reached _).2.1 1 (by decide) fun a reaches => ?_
    have none_ : embeddedV4 1 = none := by decide
    rw [embeddedV4_eq_some.mpr reaches] at none_
    cases none_
  · decide
  · exact ((egress_judges_reached _).2.2 (fun _ port => .ok [⟨.v6 (v4Mapped 0x01010101#32), port⟩]) "one.example".toList
      443 [⟨.v4 0x01010101#32, 443⟩] (by decide) _ (List.mem_singleton.mpr rfl)).2.2 _ _ (.inl rfl) (.v4 _) |>.2

end OmarchyPool.Egress
