import Mathlib.Algebra.Group.Nat.Defs

/-!
# SHA-256 and HMAC-SHA256

The keyed hash as FIPS 180-4 and RFC 2104 define it, on words held as naturals below `2 ^ 32`, so that a
tag can be computed inside a proof.
-/

namespace Pulsate.Lib.Sha256

def add (x y : Nat) : Nat := (x + y) % 2 ^ 32

def rotr (n x : Nat) : Nat := (x >>> n) ||| ((x <<< (32 - n)) % 2 ^ 32)

def bigSigma0 (x : Nat) : Nat := rotr 2 x ^^^ rotr 13 x ^^^ rotr 22 x

def bigSigma1 (x : Nat) : Nat := rotr 6 x ^^^ rotr 11 x ^^^ rotr 25 x

def smallSigma0 (x : Nat) : Nat := rotr 7 x ^^^ rotr 18 x ^^^ (x >>> 3)

def smallSigma1 (x : Nat) : Nat := rotr 17 x ^^^ rotr 19 x ^^^ (x >>> 10)

def ch (x y z : Nat) : Nat := (x &&& y) ^^^ ((2 ^ 32 - 1 - x) &&& z)

def maj (x y z : Nat) : Nat := (x &&& y) ^^^ (x &&& z) ^^^ (y &&& z)

def roundConstants : List Nat := [
  0x428a2f98, 0x71374491, 0xb5c0fbcf, 0xe9b5dba5, 0x3956c25b, 0x59f111f1, 0x923f82a4, 0xab1c5ed5,
  0xd807aa98, 0x12835b01, 0x243185be, 0x550c7dc3, 0x72be5d74, 0x80deb1fe, 0x9bdc06a7, 0xc19bf174,
  0xe49b69c1, 0xefbe4786, 0x0fc19dc6, 0x240ca1cc, 0x2de92c6f, 0x4a7484aa, 0x5cb0a9dc, 0x76f988da,
  0x983e5152, 0xa831c66d, 0xb00327c8, 0xbf597fc7, 0xc6e00bf3, 0xd5a79147, 0x06ca6351, 0x14292967,
  0x27b70a85, 0x2e1b2138, 0x4d2c6dfc, 0x53380d13, 0x650a7354, 0x766a0abb, 0x81c2c92e, 0x92722c85,
  0xa2bfe8a1, 0xa81a664b, 0xc24b8b70, 0xc76c51a3, 0xd192e819, 0xd6990624, 0xf40e3585, 0x106aa070,
  0x19a4c116, 0x1e376c08, 0x2748774c, 0x34b0bcb5, 0x391c0cb3, 0x4ed8aa4a, 0x5b9cca4f, 0x682e6ff3,
  0x748f82ee, 0x78a5636f, 0x84c87814, 0x8cc70208, 0x90befffa, 0xa4506ceb, 0xbef9a3f7, 0xc67178f2]

/-- The eight working variables. -/
structure Words where
  (a b c d e f g h : Nat)

def Words.initial : Words where
  a := 0x6a09e667
  b := 0xbb67ae85
  c := 0x3c6ef372
  d := 0xa54ff53a
  e := 0x510e527f
  f := 0x9b05688c
  g := 0x1f83d9ab
  h := 0x5be0cd19

def Words.round (s : Words) (k w : Nat) : Words :=
  let t1 := add (add (add (add s.h (bigSigma1 s.e)) (ch s.e s.f s.g)) k) w
  let t2 := add (bigSigma0 s.a) (maj s.a s.b s.c)
  ⟨add t1 t2, s.a, s.b, s.c, add s.d t1, s.e, s.f, s.g⟩

def Words.add (s t : Words) : Words :=
  ⟨Sha256.add s.a t.a, Sha256.add s.b t.b, Sha256.add s.c t.c, Sha256.add s.d t.d,
    Sha256.add s.e t.e, Sha256.add s.f t.f, Sha256.add s.g t.g, Sha256.add s.h t.h⟩

/-- One round for each constant, with the message schedule kept as a window of sixteen words. -/
def rounds (window : List Nat) (s : Words) : List Nat → Words
  | [] => s
  | k :: ks =>
    match window with
    | w :: ws =>
      let next := Sha256.add (Sha256.add (smallSigma1 (ws.getD 13 0)) (ws.getD 8 0))
        (Sha256.add (smallSigma0 (ws.getD 0 0)) w)
      rounds (ws ++ [next]) (s.round k w) ks
    | [] => s

def beWord (bs : List UInt8) : Nat := bs.foldl (fun n b => n * 256 + b.toNat) 0

def beBytes (width n : Nat) : List UInt8 :=
  (List.range width).map (fun i => UInt8.ofNat (n / 256 ^ (width - 1 - i) % 256))

def compress (s : Words) (block : List UInt8) : Words :=
  let window := (List.range 16).map (fun i => beWord ((block.drop (4 * i)).take 4))
  s.add (rounds window s roundConstants)

def pad (msg : List UInt8) : List UInt8 :=
  msg ++ [0x80] ++ List.replicate ((119 - msg.length % 64) % 64) 0 ++ beBytes 8 (8 * msg.length)

def digest (s : Words) : List UInt8 :=
  [s.a, s.b, s.c, s.d, s.e, s.f, s.g, s.h].flatMap (beBytes 4)

def sha256 (msg : List UInt8) : List UInt8 :=
  let padded := pad msg
  let blocks := (List.range (padded.length / 64)).map (fun i => (padded.drop (64 * i)).take 64)
  digest (blocks.foldl compress Words.initial)

theorem sha256_length (msg : List UInt8) : (sha256 msg).length = 32 := by
  simp [sha256, digest, beBytes]

def hmac (key msg : List UInt8) : List UInt8 :=
  let key := if 64 < key.length then sha256 key else key
  let block := key ++ List.replicate (64 - key.length) 0
  sha256 (block.map (· ^^^ 0x5c) ++ sha256 (block.map (· ^^^ 0x36) ++ msg))

theorem hmac_length (key msg : List UInt8) : (hmac key msg).length = 32 := sha256_length _

end Pulsate.Lib.Sha256
