import Mathlib.Data.List.Infix
import Mathlib.Logic.Relation
import Pulsate.Std.Utf8
import Pulsate.Waf.Acl

/-!
# Signatures (`pulsate-waf`)

What the engine looks for in a request target, and how it reads the target before.
-/

namespace Pulsate.Waf

/-! ## Reading a target -/

def hexValue (b : UInt8) : Option Nat := IpAddr.toDigit 16 (Char.ofUInt8 b)

/-- Bytes after one pass of decoding. A `%` that no two digits follow stays. -/
def percentDecodeBytes : List UInt8 → List UInt8
  | [] => []
  | b :: hi :: lo :: rest =>
    match if b = 0x25 then (hexValue hi).bind (fun h => (hexValue lo).map (fun l => h * 16 + l)) else none with
    | some n => UInt8.ofNat n :: percentDecodeBytes rest
    | none => (if b = 0x2B then 0x20 else b) :: percentDecodeBytes (hi :: lo :: rest)
  | b :: rest => (if b = 0x2B then 0x20 else b) :: percentDecodeBytes rest

def percentDecode (s : Str) : Str := Str.fromUtf8Lossy (percentDecodeBytes s.bytes)

def maxDecodePasses : Nat := 8

/-- Decoding until nothing changes, or the passes are used up. -/
def decodePasses : Nat → Str → Str
  | 0, current => current
  | passes + 1, current =>
    let decoded := percentDecode current
    if decoded = current then current else decodePasses passes decoded

/-- `strip_block_comments`, in a comment or outside of one. A byte becomes the character of its number. -/
def stripBlockCommentBytes : Bool → List UInt8 → Str
  | _, [] => []
  | false, 0x2F :: 0x2A :: rest => ' ' :: stripBlockCommentBytes true rest
  | true, 0x2A :: 0x2F :: rest => stripBlockCommentBytes false rest
  | false, b :: rest => Char.ofUInt8 b :: stripBlockCommentBytes false rest
  | true, _ :: rest => stripBlockCommentBytes true rest

def stripBlockComments (s : Str) : Str := stripBlockCommentBytes false s.bytes

/-- `collapse_whitespace`, in a run of blanks or outside of one. -/
def collapseFrom : Bool → Str → Str
  | _, [] => []
  | inWs, c :: s =>
    if Str.isWhitespace c then (if inWs then collapseFrom true s else ' ' :: collapseFrom true s)
    else c :: collapseFrom false s

def collapseWhitespace (s : Str) : Str := collapseFrom false s

def normalize (input : Str) : Str :=
  collapseWhitespace (stripBlockComments (Str.toAsciiLowercase (decodePasses maxDecodePasses input)))

/-! ## Signatures -/

structure Signature where
  id : Str
  needle : Str
  deriving DecidableEq, Repr

def signatures : List Signature :=
  [⟨"sqli-union", "union select"⟩, ⟨"sqli-or", "' or '1'='1"⟩, ⟨"sqli-comment", "-- "⟩, ⟨"sqli-drop", "; drop table"⟩,
    ⟨"xss-script", "<script"⟩, ⟨"xss-js", "javascript:"⟩, ⟨"xss-onerror", "onerror="⟩, ⟨"traversal", "../"⟩,
    ⟨"traversal-enc", "..%2f"⟩, ⟨"rce-etc-passwd", "/etc/passwd"⟩]

namespace WafEngine

def detect (pathAndQuery : Str) : Option Str :=
  (signatures.find? (fun s => s.needle <:+: normalize pathAndQuery)).map (·.id)

def inspect (engine : WafEngine) (pathAndQuery : Str) : Option Block :=
  (detect pathAndQuery).bind (fun matched =>
    if engine.mode = .block then some (.new .wafRule ("matched signature " ++ matched)) else none)

end WafEngine

/-! ## What a target spells -/

/-- The target decoded, in lower case: what the signatures are meant to be looked for in. -/
def decoded (target : Str) : Str := Str.toAsciiLowercase (decodePasses maxDecodePasses target)

def isBlank (b : UInt8) : Bool := Str.isWhitespace (Char.ofUInt8 b)

/-- What follows a comment: what stands behind the first `*/`, or nothing. -/
def afterComment : List UInt8 → List UInt8
  | [] => []
  | 0x2A :: 0x2F :: rest => rest
  | _ :: rest => afterComment rest

/-- White space or a comment, and what follows. -/
inductive Gap : List UInt8 → List UInt8 → Prop
  | blank {b : UInt8} {s : List UInt8} (h : isBlank b) : Gap (b :: s) s
  | comment {s : List UInt8} : Gap (0x2F :: 0x2A :: s) (afterComment s)

/-- A byte that is neither white space nor the begin of a comment, and what follows. -/
structure Plain (b : UInt8) (s : List UInt8) : Prop where
  notBlank : isBlank b = false
  notComment : b = 0x2F → s.head? ≠ some 0x2A

/-- The text stands here letter by letter, where a blank is any number of gaps. -/
inductive Reads : Str → List UInt8 → Prop
  | nil {s : List UInt8} : Reads [] s
  | letter {b : UInt8} {s : List UInt8} {text : Str} (h : Plain b s) (rest : Reads text s) : Reads (Char.ofUInt8 b :: text) (b :: s)
  | blank {s s' : List UInt8} {text : Str} (h : Relation.TransGen Gap s s') (rest : Reads text s') : Reads (' ' :: text) s

/-- A place in a target that is not in a comment. -/
def Outside : List UInt8 → List UInt8 → Prop :=
  Relation.ReflTransGen (fun s s' => Gap s s' ∨ ∃ b, Plain b s' ∧ s = b :: s')

/-- The text can be read at a place outside of the comments. -/
def Spells (s : List UInt8) (text : Str) : Prop := ∃ s', Outside s s' ∧ Reads text s'

/-! ## What is written otherwise -/

/-- The escape of a byte, with digits of either case. -/
def IsEscape (b : UInt8) (e : Str) : Prop :=
  ∃ hi lo, e = ['%', hi, lo] ∧ IpAddr.toDigit 16 hi = some (b.toNat / 16) ∧ IpAddr.toDigit 16 lo = some (b.toNat % 16)

/-- Some characters, and every `%`, are written as the escapes of their bytes. -/
inductive Encodes : Str → Str → Prop
  | nil : Encodes [] []
  | keep {c : Char} {s t : Str} (hc : c ≠ '%') (h : Encodes s t) : Encodes (c :: s) (c :: t)
  | escape {c : Char} {es : List Str} {s t : Str} (hes : List.Forall₂ IsEscape (String.utf8EncodeChar c) es) (h : Encodes s t) :
      Encodes (c :: s) (es.flatten ++ t)

/-- One layer over another. -/
inductive EncodesTimes : Nat → Str → Str → Prop
  | zero {s : Str} : EncodesTimes 0 s s
  | succ {n : Nat} {s t u : Str} (h : EncodesTimes n s t) (hlayer : Encodes t u) : EncodesTimes (n + 1) s u

/-- White space or a closed comment. -/
inductive Separates : Str → Prop
  | blank {c : Char} (hascii : c.toNat < 128) (hc : Str.isWhitespace c) : Separates [c]
  | comment {body : Str} (h : ¬ "*/" <:+: body) : Separates ("/*" ++ body ++ "*/")

/-- The text is written in letters of any case and with separators for its blanks. -/
inductive Disguises : Str → Str → Prop
  | nil : Disguises [] []
  | letter {c d : Char} {text s : Str} (hc : c ≠ ' ') (hcase : d.toLower = c) (h : Disguises text s) :
      Disguises (c :: text) (d :: s)
  | blank {pieces : List Str} {text s : Str} (hne : pieces ≠ []) (hpieces : ∀ p ∈ pieces, Separates p)
      (h : Disguises text s) : Disguises (' ' :: text) (pieces.flatten ++ s)

end Pulsate.Waf
