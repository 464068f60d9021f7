import Pulsate.Std.Str

/-!
# Network addresses

`IpAddr` and its parser, as `core::net` has it: each reader takes a text and returns what it read with
the text left over, or nothing, and then nothing is consumed.
-/

namespace Pulsate

/-- An IP address, as its bits in network order. -/
inductive IpAddr where
  | v4 (bits : BitVec 32)
  | v6 (bits : BitVec 128)
  deriving DecidableEq, Repr

inductive SocketAddr where
  | v4 (ip : BitVec 32) (port : BitVec 16)
  | v6 (ip : BitVec 128) (port : BitVec 16) (flowinfo scopeId : BitVec 32)
  deriving DecidableEq, Repr

namespace IpAddr

/-- `char::to_digit`, for a radix of at most 16. -/
def toDigit (radix : Nat) (c : Char) : Option Nat :=
  let v :=
    if '0' ≤ c ∧ c ≤ '9' then some (c.toNat - '0'.toNat)
    else if 'a' ≤ c ∧ c ≤ 'f' then some (c.toNat - 'a'.toNat + 10)
    else if 'A' ≤ c ∧ c ≤ 'F' then some (c.toNat - 'A'.toNat + 10)
    else none
  v.filter (· < radix)

/-- Reads a number of at most `maxDigits` digits that is below `bound`. -/
def readNumber (radix maxDigits bound : Nat) (allowZeroPrefix : Bool) (s : Str) : Option (Nat × Str) :=
  let digits := s.takeWhile (fun c => (toDigit radix c).isSome)
  let value := digits.foldl (fun n c => n * radix + (toDigit radix c).getD 0) 0
  if digits = [] ∨ maxDigits < digits.length then none
  else if !allowZeroPrefix ∧ digits.head? = some '0' ∧ 1 < digits.length then none
  else if value < bound then some (value, s.drop digits.length)
  else none

/-- Reads the separator, unless this is the first item. -/
def readSeparator (sep : Char) (index : Nat) (s : Str) : Option Str :=
  if index = 0 then some s else s.stripPrefix [sep]

def readOctets : Nat → Nat → Str → Option (List Nat × Str)
  | _, 0, s => some ([], s)
  | i, n + 1, s => do
    let s ← readSeparator '.' i s
    let (octet, s) ← readNumber 10 3 256 false s
    let (octets, s) ← readOctets (i + 1) n s
    return (octet :: octets, s)

/-- The four octets of an IPv4 address. -/
def readIpv4 (s : Str) : Option (List Nat × Str) := readOctets 0 4 s

/-- Up to `limit - i` groups of an IPv6 address from group `i` on, and whether the last two are an
embedded IPv4 address. -/
def readGroups (limit : Nat) : Nat → Nat → Str → List Nat × Bool × Str
  | _, 0, s => ([], false, s)
  | i, n + 1, s =>
    let embedded := if i < limit - 1 then (readSeparator ':' i s).bind readIpv4 else none
    match embedded with
    | some ([a, b, c, d], rest) => ([a * 256 + b, c * 256 + d], true, rest)
    | _ =>
      match (readSeparator ':' i s).bind (readNumber 16 4 65536 true) with
      | some (g, rest) =>
        let (gs, isV4, rest) := readGroups limit (i + 1) n rest
        (g :: gs, isV4, rest)
      | none => ([], false, s)

def readIpv6 (s : Str) : Option (List Nat × Str) := do
  let (head, headV4, s) := readGroups 8 0 8 s
  if head.length = 8 then return (head, s)
  if headV4 then none
  let s ← s.stripPrefix "::"
  let limit := 8 - (head.length + 1)
  let (tail, _, s) := readGroups limit 0 limit s
  return (head ++ List.replicate (8 - head.length - tail.length) 0 ++ tail, s)

def ofDigits (base : Nat) (ds : List Nat) : Nat := ds.foldl (fun n d => n * base + d) 0

/-- `IpAddr::from_str`. -/
def parse (s : Str) : Option IpAddr :=
  match readIpv4 s with
  | some (octets, rest) => if rest = [] then some (.v4 (BitVec.ofNat 32 (ofDigits 256 octets))) else none
  | none =>
    match readIpv6 s with
    | some (groups, rest) =>
      if rest = [] then some (.v6 (BitVec.ofNat 128 (ofDigits 65536 groups))) else none
    | none => none

/-! ## Addresses as texts -/

def octets (bits : BitVec 32) : List Nat := [24, 16, 8, 0].map (fun s => bits.toNat / 2 ^ s % 256)

def segments (bits : BitVec 128) : List Nat := [112, 96, 80, 64, 48, 32, 16, 0].map (fun s => bits.toNat / 2 ^ s % 65536)

/-- `Ipv6Addr::to_ipv4_mapped`. -/
def toIpv4Mapped (bits : BitVec 128) : Option (BitVec 32) :=
  if bits.toNat / 2 ^ 32 = 0xFFFF then some (bits.setWidth 32) else none

/-- `IpAddr::to_canonical`. -/
def toCanonical : IpAddr → IpAddr
  | .v4 bits => .v4 bits
  | .v6 bits => (toIpv4Mapped bits).elim (.v6 bits) .v4

def ipv4Text (bits : BitVec 32) : Str := List.intercalate ['.'] ((octets bits).map (Nat.toDigits 10))

/-- Where the first of the longest runs of zeros begins, and how long it is. -/
def longestZeros (segments : List Nat) : Nat × Nat :=
  (segments.zipIdx.foldl (fun (longest, current) (segment, i) =>
    if segment = 0 then
      let current := if current.2 = 0 then (i, 1) else (current.1, current.2 + 1)
      (if longest.2 < current.2 then current else longest, current)
    else (longest, (0, 0))) ((0, 0), (0, 0))).1

def segmentsText (segments : List Nat) : Str := List.intercalate [':'] (segments.map (Nat.toDigits 16))

def ipv6Text (bits : BitVec 128) : Str :=
  match toIpv4Mapped bits with
  | some ipv4 => "::ffff:" ++ ipv4Text ipv4
  | none =>
    let zeros := longestZeros (segments bits)
    if 1 < zeros.2 then
      segmentsText ((segments bits).take zeros.1) ++ "::" ++ segmentsText ((segments bits).drop (zeros.1 + zeros.2))
    else segmentsText (segments bits)

/-- `IpAddr`'s `Display`. -/
def toText : IpAddr → Str
  | .v4 bits => ipv4Text bits
  | .v6 bits => ipv6Text bits

example : (parse "2001:DB8::1:0:0:1").map toText = some "2001:db8::1:0:0:1" := by decide +kernel

example : (parse "::ffff:192.0.2.1").map (fun ip => toText (toCanonical ip)) = some "192.0.2.1" := by decide +kernel

end IpAddr

end Pulsate
