import Goz.Core.Types

namespace Goz

abbrev CodePoint := Nat

namespace Wtf8

/-- One code point as 1 to 4 bytes, surrogates included. The bit fields are disjoint, so each
    `|` of the source is a sum here. -/
def encodeCodePoint (cp : CodePoint) : Bytes :=
  if cp < 0x80 then [UInt8.ofNat cp]
  else if cp < 0x800 then [UInt8.ofNat (0xC0 + cp / 64), UInt8.ofNat (0x80 + cp % 64)]
  else if cp < 0x10000 then
    [UInt8.ofNat (0xE0 + cp / 4096), UInt8.ofNat (0x80 + cp / 64 % 64), UInt8.ofNat (0x80 + cp % 64)]
  else
    [UInt8.ofNat (0xF0 + cp / 262144), UInt8.ofNat (0x80 + cp / 4096 % 64),
      UInt8.ofNat (0x80 + cp / 64 % 64), UInt8.ofNat (0x80 + cp % 64)]

def encode (cps : List CodePoint) : Bytes := cps.flatMap encodeCodePoint

def isHighSurrogate (u : UInt16) : Bool := 0xD800 ≤ u.toNat && u.toNat < 0xDC00

def isLowSurrogate (u : UInt16) : Bool := 0xDC00 ≤ u.toNat && u.toNat < 0xE000

def utf16CodePoints : List UInt16 → List CodePoint × Bool
  | [] => ([], false)
  | [u] => ([u.toNat], isHighSurrogate u || isLowSurrogate u)
  | u :: lo :: rest =>
    if isHighSurrogate u && isLowSurrogate lo then
      let following := utf16CodePoints rest
      ((0x10000 + ((u.toNat - 0xD800) * 1024 + (lo.toNat - 0xDC00))) :: following.1, following.2)
    else
      let following := utf16CodePoints (lo :: rest)
      (u.toNat :: following.1, isHighSurrogate u || isLowSurrogate u || following.2)

def fromUtf16 (units : List UInt16) : Bytes × Bool :=
  (encode (utf16CodePoints units).1, (utf16CodePoints units).2)

def lead (b : UInt8) : Option (Nat × Nat) :=
  if b.toNat < 0x80 then some (1, b.toNat)
  else if b.toNat < 0xC0 then none
  else if b.toNat < 0xE0 then some (2, b.toNat % 32)
  else if b.toNat < 0xF0 then some (3, b.toNat % 16)
  else if b.toNat < 0xF8 then some (4, b.toNat % 8)
  else none

def continuation : Nat → CodePoint → Bytes → Option CodePoint
  | 0, cp, _ => some cp
  | _ + 1, _, [] => none
  | count + 1, cp, c :: rest =>
    if c.toNat / 64 = 2 then continuation count (cp * 64 + c.toNat % 64) rest else none

def minimal : Nat → Nat
  | 2 => 0x80
  | 3 => 0x800
  | 4 => 0x10000
  | _ => 0

/-- The code point at the front of `bytes` and how many bytes it took: malformed input gives
    U+FFFD and one byte. -/
def nextCodePoint (b : UInt8) (rest : Bytes) : CodePoint × Nat :=
  match lead b with
  | none => (0xFFFD, 1)
  | some (len, init) =>
    match continuation (len - 1) init rest with
    | none => (0xFFFD, 1)
    | some cp => if cp < minimal len ∨ cp > 0x10FFFF then (0xFFFD, 1) else (cp, len)

def codePointsFuel : Nat → Bytes → List CodePoint
  | 0, _ => []
  | _ + 1, [] => []
  | fuel + 1, b :: rest =>
    let (cp, len) := nextCodePoint b rest
    cp :: codePointsFuel fuel (rest.drop (len - 1))

def codePoints (bytes : Bytes) : List CodePoint := codePointsFuel bytes.length bytes

end Wtf8

variable [Externals]

def lowerChar (c : Char) : Char := (Externals.toLowercase c).head?.getD c

def encodeChars (chars : List Char) : Bytes := Wtf8.encode (chars.map Char.toNat)

def composeInto (run : List Char) (out : Bytes) : Bytes :=
  if run.isEmpty then out else out ++ encodeChars (Externals.nfc run)

def fromU32 (cp : CodePoint) : Option Char := if Nat.isValidChar cp then some (Char.ofNat cp) else none

def foldCodePoints : List CodePoint → List Char → Bytes → Bytes
  | [], run, out => composeInto run out
  | cp :: rest, run, out =>
    match fromU32 cp with
    | some c => foldCodePoints rest (run ++ (Externals.decomposeCanonical c).map lowerChar) out
    | none => foldCodePoints rest [] (composeInto run out ++ Wtf8.encodeCodePoint cp)

def foldNonAscii (bytes : Bytes) : Bytes := foldCodePoints (Wtf8.codePoints bytes) [] []

def isAscii (bytes : Bytes) : Bool := bytes.all (·.toNat < 0x80)

def toAsciiLowercase (b : UInt8) : UInt8 := if 0x41 ≤ b.toNat ∧ b.toNat ≤ 0x5A then b + 0x20 else b

def fold (bytes : Bytes) : Bytes :=
  if isAscii bytes then bytes.map toAsciiLowercase else foldNonAscii bytes

end Goz
