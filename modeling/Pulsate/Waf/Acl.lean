import Pulsate.Std.Net

/-!
# Address ranges and lists, limiters and engines (`pulsate-waf`)

What the routing table holds of the web application firewall.
-/

namespace Pulsate.Waf

structure Cidr where
  base : IpAddr
  width : Nat
  deriving DecidableEq, Repr

/-- `Cidr::from_str`; the error texts are not looked at. -/
def Cidr.parse (s : Str) : Option Cidr := do
  let (addr, width) := match s.splitOnce "/" with
    | some (a, p) => (a, some p)
    | none => (s, none)
  let base ← IpAddr.parse addr
  let max := match base with
    | .v4 _ => 32
    | .v6 _ => 128
  let width ← match width with
    | some p => Str.parseUnsigned 8 p
    | none => some max
  if max < width then none else some ⟨base, width⟩

/-- `v4_mask` and `v6_mask`. -/
def mask (bits width : Nat) : BitVec bits := BitVec.allOnes bits <<< (bits - width)

def Cidr.contains (c : Cidr) (ip : IpAddr) : Bool :=
  match c.base, ip with
  | .v4 base, .v4 ip => base &&& mask 32 c.width = ip &&& mask 32 c.width
  | .v6 base, .v6 ip => base &&& mask 128 c.width = ip &&& mask 128 c.width
  | _, _ => false

/-! ## Blocking -/

inductive Code
  | wafRule
  | wafIpDenied
  deriving DecidableEq, Repr

def Code.httpStatus : Code → Nat
  | .wafRule => 403
  | .wafIpDenied => 403

structure Block where
  code : Code
  status : Nat
  reason : Str
  deriving DecidableEq, Repr

def Block.new (code : Code) (reason : Str) : Block := ⟨code, code.httpStatus, reason⟩

structure IpAcl where
  allow : List Cidr
  deny : List Cidr
  deriving DecidableEq, Repr

/-- Whether an address is blocked. A list of allowed ranges that does not hold it blocks it. -/
def IpAcl.check (acl : IpAcl) (ip : IpAddr) : Option Block :=
  let ip := ip.toCanonical
  if acl.allow.any (·.contains ip) then none
  else if !acl.allow.isEmpty then some (.new .wafIpDenied ("ip " ++ ip.toText ++ " not in allow list"))
  else if acl.deny.any (·.contains ip) then some (.new .wafIpDenied ("ip " ++ ip.toText ++ " denied"))
  else none

/-! ## What a list is to block -/

/-- A range of IPv4 addresses that is written as one of IPv6 addresses is one of IPv4 addresses. -/
def Cidr.toCanonical (c : Cidr) : Cidr :=
  match c.base with
  | .v4 _ => c
  | .v6 bits =>
    match IpAddr.toIpv4Mapped bits with
    | some ipv4 => if 96 ≤ c.width then ⟨.v4 ipv4, c.width - 96⟩ else c
    | none => c

/-- The first bits are the same. -/
def Agree {n : Nat} (width : Nat) (a b : BitVec n) : Prop := ∀ i < width, a.getMsbD i = b.getMsbD i

/-- Two addresses of one family begin with the same bits. -/
def AddrAgree (width : Nat) (base ip : IpAddr) : Prop :=
  match base, ip with
  | .v4 base, .v4 ip => Waf.Agree width base ip
  | .v6 base, .v6 ip => Waf.Agree width base ip
  | _, _ => False

/-- The address is in the range, however either of them is written. -/
def Cidr.Covers (c : Cidr) (ip : IpAddr) : Prop := AddrAgree c.toCanonical.width c.toCanonical.base ip.toCanonical

/-- The rules that decide: the deny list only counts where there is no allow list. -/
def IpAcl.rules (acl : IpAcl) : List Cidr := if acl.allow = [] then acl.deny else acl.allow

def IpAcl.Blocks (acl : IpAcl) (ip : IpAddr) : Prop :=
  acl.allow ≠ [] ∧ (∀ c ∈ acl.allow, ¬ c.Covers ip) ∨ acl.allow = [] ∧ ∃ c ∈ acl.deny, c.Covers ip

/-! ## Limiters and engines -/

inductive Mode
  | block
  | detect
  deriving DecidableEq, Repr

/-- A limiter as built: its limit and its window in seconds. -/
structure RateLimiter where
  limit : Nat
  windowSecs : Nat
  deriving DecidableEq, Repr

structure WafEngine where
  mode : Mode
  deriving DecidableEq, Repr

end Pulsate.Waf
