import Pulsate.Lib.Run
import Pulsate.Std.Str

/-!
# The audit log (`pulsate-waf`)

A chain of entries, each authenticated together with the hash of the entry before it. The keyed hash
itself is `ring::hmac`; it enters as the function `mac` from message bytes to tag bytes under the log's
key.
-/

namespace Pulsate.Waf

structure AuditEntry where
  seq : UInt64
  event : Str
  prevHash : Str
  hash : Str
  deriving DecidableEq, Repr

/-- `u64::to_le_bytes`. -/
def toLeBytes (n : UInt64) : List UInt8 :=
  (List.range 8).map (fun i => UInt8.ofNat (n.toNat / 256 ^ i % 256))

def hexDigit (n : Nat) : Char := "0123456789abcdef".toList.getD n '0'

def hex (bytes : List UInt8) : Str :=
  bytes.flatMap (fun b => [hexDigit (b.toNat / 16), hexDigit (b.toNat % 16)])

section

variable (mac : List UInt8 → List UInt8)

def chainHash (prev : Str) (seq : UInt64) (event : Str) : Str :=
  hex (mac (prev.bytes ++ toLeBytes seq ++ event.bytes))

def append (entries : List AuditEntry) (event : Str) : List AuditEntry :=
  let (seq, prevHash) := match entries.getLast? with
    | none => (0, [])
    | some e => (e.seq + 1, e.hash)
  entries ++ [⟨seq, event, prevHash, chainHash mac prevHash seq event⟩]

/-- The loop of `verify`, with the hash of the last entry it has seen. -/
def verifyFrom (prev : Str) : List AuditEntry → Bool
  | [] => true
  | e :: es =>
    if e.prevHash ≠ prev ∨ e.hash ≠ chainHash mac prev e.seq e.event then false
    else verifyFrom e.hash es

def verify (entries : List AuditEntry) : Bool := verifyFrom mac [] entries

/-- The log that `append`ing these events, one after another, leaves. -/
def auditLog (events : List Str) : List AuditEntry := Lib.run (append mac) [] events

end

/-- The bytes an entry's hash is taken of. -/
def AuditEntry.message (e : AuditEntry) : List UInt8 :=
  e.prevHash.bytes ++ toLeBytes e.seq ++ e.event.bytes

/-- No two of these entries are different messages with one tag. -/
def CollisionFree (mac : List UInt8 → List UInt8) (entries : List AuditEntry) : Prop :=
  ∀ a ∈ entries, ∀ b ∈ entries, mac a.message = mac b.message → a.message = b.message

instance (mac : List UInt8 → List UInt8) (entries : List AuditEntry) :
    Decidable (CollisionFree mac entries) :=
  decidable_of_iff (∀ a ∈ entries, ∀ b ∈ entries,
      a.message = b.message ∨ mac a.message ≠ mac b.message)
    (forall₂_congr fun _ _ => forall₂_congr fun _ _ => by rw [or_comm, ← imp_iff_not_or])

end Pulsate.Waf
